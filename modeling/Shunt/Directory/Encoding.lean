/-
The JSON form of a placement.  It is what the store, the directory endpoint, the cache
of a member and the change records hold, and every one of them is read through the same
decoder, which ends in the conversion of schema v2.
-/

import Shunt.Directory.Legs
import Shunt.Library.Json

namespace Shunt.Directory

open Library List
open Config (Barrier BarrierKind quoted)

def hexDigit (c : Char) : Option Nat :=
  if '0' ≤ c ∧ c ≤ '9' then some (c.toNat - '0'.toNat)
  else if 'a' ≤ c ∧ c ≤ 'f' then some (c.toNat - 'a'.toNat + 10)
  else if 'A' ≤ c ∧ c ≤ 'F' then some (c.toNat - 'A'.toNat + 10)
  else none

def parseHex (sofar : Nat) : List Char → Option Nat
  | [] => some sofar
  | c :: rest => (hexDigit c).bind fun d => parseHex (16 * sofar + d) rest

def hashOf (s : String) : Except String Hash :=
  match if s.toList.length = 16 then parseHex 0 s.toList else none with
  | some n => .ok (UInt64.ofNat n)
  | none => .error ("hash " ++ quoted s ++ ": want 16 hex digits")

def decodeHash (value : Json) : Except String Hash := (decodeText value).bind hashOf

theorem parseHex_append (sofar : Nat) (left right : List Char) :
    parseHex sofar (left ++ right) = (parseHex sofar left).bind fun n => parseHex n right := by
  induction left generalizing sofar with
  | nil => rfl
  | cons c rest ih =>
    rw [cons_append, parseHex, parseHex]
    cases hexDigit c with
    | none => rfl
    | some => exact ih _

theorem parseHex_zeros (count : Nat) : parseHex 0 (List.replicate count '0') = some 0 := by
  induction count with
  | zero => rfl
  | succ count ih =>
    rw [replicate_succ, parseHex]
    exact ih

theorem hexDigit_digitChar (d : Nat) (small : d < 16) : hexDigit d.digitChar = some d := by
  have each : ∀ d : Fin 16, hexDigit d.val.digitChar = some d.val := by decide
  exact each ⟨d, small⟩

theorem parseHex_toDigits (n : Nat) : parseHex 0 (Nat.toDigits 16 n) = some n := by
  induction n using Nat.strong_induction_on with
  | _ n ih =>
    by_cases small : n < 16
    · rw [Nat.toDigits_of_lt_base small, parseHex, hexDigit_digitChar n small]
      simp [parseHex]
    have large : 16 ≤ n := by omega
    rw [Nat.toDigits_of_base_le (by decide) large, parseHex_append, ih (n / 16) (by omega)]
    change parseHex (n / 16) [(n % 16).digitChar] = some n
    rw [parseHex, hexDigit_digitChar (n % 16) (by omega)]
    change some (16 * (n / 16) + n % 16) = some n
    rw [Nat.div_add_mod]

theorem hashOf_hex16 (h : Hash) : hashOf (hex16 h) = .ok h := by
  have bound : h.toNat < 16 ^ 16 := by
    have below := h.toNat_lt
    omega
  have short : (Nat.toDigits 16 h.toNat).length ≤ 16 :=
    (Nat.length_toDigits_le_iff (by decide) (by decide)).mpr bound
  have width : (hex16 h).toList.length = 16 := by
    simp only [hex16, String.toList_ofList, length_append, length_replicate]
    omega
  have value : parseHex 0 (hex16 h).toList = some h.toNat := by
    simp only [hex16, String.toList_ofList, parseHex_append, parseHex_zeros]
    exact parseHex_toDigits h.toNat
  rw [hashOf, if_pos width, value]
  simp

theorem readValue_hashText (s : String) : readValue decodeHash 0 (some (.text s)) = hashOf s := rfl

@[simp] theorem readValue_hash (h : Hash) :
    readValue decodeHash 0 (some (.text (hex16 h))) = .ok h := by
  rw [readValue_hashText, hashOf_hex16]

def HashRange.record (rg : HashRange) : List (String × Option Json) :=
  [("from", some (.text (hex16 rg.lo))), ("to", some (.text (hex16 rg.hi)))]

def RampHold.record (h : RampHold) : List (String × Option Json) :=
  [("ratio", omitNumber h.ratio), ("prefixes", omitList (fun k => .text (textOf k)) h.prefixes)]

def Ramp.record (r : Ramp) : List (String × Option Json) :=
  [("hash", some (.text r.hash)), ("ratio", omitNumber r.ratio),
    ("prefixes", omitList (fun k => .text (textOf k)) r.prefixes),
    ("range", r.range.map fun rg => .object (written rg.record)),
    ("hold", r.hold.map fun h => .object (written h.record))]

def CutoverEvidence.record (ev : CutoverEvidence) : List (String × Option Json) :=
  [("at", some (.time ev.takenAt)), ("window", some (.number (.num ev.window))),
    ("fallback_reads", some (.number ev.fallbackReads))]

def Leg.record (l : Leg) : List (String × Option Json) :=
  [("cluster", some (.text l.cluster)), ("bucket", some (.text l.bucket))]

def Owner.record (o : Owner) : List (String × Option Json) :=
  [("from", some (.text (hex16 o.lo))), ("to", some (.text (hex16 o.hi))),
    ("leg", some (.text o.leg))]

def PrefixRule.record (rule : PrefixRule) : List (String × Option Json) :=
  [("prefix", some (.text (textOf rule.pre))),
    ("owners", some (.array (rule.owners.map fun o => .object (written o.record))))]

def Move.record (m : Move) : List (String × Option Json) :=
  [("scope", omitText (textOf m.scope)), ("range", some (.object (written m.range.record))),
    ("from", some (.text m.source)), ("to", some (.text m.dest)),
    ("ramp", m.ramp.map fun r => .object (written r.record)),
    ("cutover", m.cutover.map fun ev => .object (written ev.record))]

def barrierRecord (b : Barrier) : List (String × Option Json) :=
  [("id", some (.text b.id)), ("kind", some (.text b.kind.text))]

def Placement.record (p : Placement) : List (String × Option Json) :=
  [("state", some (.text p.state.text)), ("primary", omitText p.primary),
    ("source", omitText p.source), ("target", omitText p.target),
    ("cutover", p.cutover.map fun ev => .object (written ev.record)),
    ("ramp", p.ramp.map fun r => .object (written r.record)),
    ("names", omitMap .text p.names), ("cold", omitText p.cold), ("tier", omitText p.tier),
    ("lifecycle", omitText p.lifecycle), ("created", omitTime p.created),
    ("read_only", omitFlag p.readOnly), ("reject_writes", omitFlag p.rejectWrites),
    ("watch", omitFlag p.watch),
    ("barrier", p.barrier.map fun b => .object (written (barrierRecord b))),
    ("legs", omitMap (fun l => .object (written l.record)) p.legs),
    ("owners", omitList (fun o => .object (written o.record)) p.owners),
    ("hash", omitText p.keyHash), ("move", p.move.map fun m => .object (written m.record)),
    ("prefixes", omitList (fun rule => .object (written rule.record)) p.prefixes)]

def Placement.tree (p : Placement) : Json := .object (written p.record)

def cutoverNumbers (cutover : Option CutoverEvidence) : List Number :=
  cutover.elim [] fun ev => [ev.fallbackReads]

def Placement.numbers (p : Placement) : List Number :=
  cutoverNumbers p.cutover ++ rampNumbers p.ramp ++
    p.move.elim [] fun m => rampNumbers m.ramp ++ cutoverNumbers m.cutover

def Placement.encode (p : Placement) : Except String Json :=
  if p.numbers.all Number.isNum then .ok p.tree else .error "json: unsupported value: NaN"

def decodeRange (value : Json) : Except String HashRange := do
  let fields ← value.fields
  let lo ← readField "from" decodeHash 0 fields
  let hi ← readField "to" decodeHash 0 fields
  return ⟨lo, hi⟩

def decodeHold (value : Json) : Except String RampHold := do
  let fields ← value.fields
  let ratio ← readField "ratio" decodeNumber 0 fields
  let prefixes ← readField "prefixes" (decodeList decodeBytes) [] fields
  return ⟨ratio, prefixes⟩

def decodeRamp (value : Json) : Except String Ramp := do
  let fields ← value.fields
  let hash ← readField "hash" decodeText "" fields
  let ratio ← readField "ratio" decodeNumber 0 fields
  let prefixes ← readField "prefixes" (decodeList decodeBytes) [] fields
  let range ← readField "range" (decodePointer decodeRange) none fields
  let hold ← readField "hold" (decodePointer decodeHold) none fields
  return ⟨hash, ratio, prefixes, range, hold⟩

def decodeCutover (value : Json) : Except String CutoverEvidence := do
  let fields ← value.fields
  let takenAt ← readField "at" decodeTime 0 fields
  let window ← readField "window" decodeInt 0 fields
  let reads ← readField "fallback_reads" decodeNumber 0 fields
  return ⟨takenAt, window, reads⟩

def decodeLeg (value : Json) : Except String Leg := do
  let fields ← value.fields
  let cluster ← readField "cluster" decodeText "" fields
  let bucket ← readField "bucket" decodeText "" fields
  return ⟨cluster, bucket⟩

def decodeOwner (value : Json) : Except String Owner := do
  let fields ← value.fields
  let lo ← readField "from" decodeHash 0 fields
  let hi ← readField "to" decodeHash 0 fields
  let leg ← readField "leg" decodeText "" fields
  return ⟨lo, hi, leg⟩

def decodeRule (value : Json) : Except String PrefixRule := do
  let fields ← value.fields
  let pre ← readField "prefix" decodeBytes [] fields
  let owners ← readField "owners" (decodeList decodeOwner) [] fields
  return ⟨pre, owners⟩

def decodeMove (value : Json) : Except String Move := do
  let fields ← value.fields
  let scope ← readField "scope" decodeBytes [] fields
  let range ← readField "range" decodeRange ⟨0, 0⟩ fields
  let source ← readField "from" decodeText "" fields
  let dest ← readField "to" decodeText "" fields
  let ramp ← readField "ramp" (decodePointer decodeRamp) none fields
  let cutover ← readField "cutover" (decodePointer decodeCutover) none fields
  return ⟨scope, range, source, dest, ramp, cutover⟩

-- The source keeps any text here and its validator refuses what names no state or kind.
def decodeState (value : Json) : Except String State := do
  let text ← decodeText value
  match states.find? fun s => s.text == text with
  | some s => return s
  | none => throw ("state: unknown " ++ quoted text)

def decodeKind (value : Json) : Except String BarrierKind := do
  let text ← decodeText value
  match [BarrierKind.mutations, .source].find? fun kind => kind.text == text with
  | some kind => return kind
  | none => throw ("barrier kind: unknown " ++ quoted text)

def decodeBarrier (value : Json) : Except String Barrier := do
  let fields ← value.fields
  let id ← readField "id" decodeText "" fields
  let kind ← readField "kind" decodeKind .mutations fields
  return ⟨id, kind⟩

def decodeRecord (value : Json) : Except String Placement := do
  let fields ← value.fields
  let state ← readField "state" decodeState .active fields
  let primary ← readField "primary" decodeText "" fields
  let source ← readField "source" decodeText "" fields
  let target ← readField "target" decodeText "" fields
  let cutover ← readField "cutover" (decodePointer decodeCutover) none fields
  let ramp ← readField "ramp" (decodePointer decodeRamp) none fields
  let names ← readField "names" (decodeMap decodeText) ∅ fields
  let cold ← readField "cold" decodeText "" fields
  let tier ← readField "tier" decodeText "" fields
  let lifecycle ← readField "lifecycle" decodeText "" fields
  let created ← readField "created" decodeTime 0 fields
  let readOnly ← readField "read_only" decodeFlag false fields
  let rejectWrites ← readField "reject_writes" decodeFlag false fields
  let watch ← readField "watch" decodeFlag false fields
  let barrier ← readField "barrier" (decodePointer decodeBarrier) none fields
  let legs ← readField "legs" (decodeMap decodeLeg) ∅ fields
  let owners ← readField "owners" (decodeList decodeOwner) [] fields
  let keyHash ← readField "hash" decodeText "" fields
  let move ← readField "move" (decodePointer decodeMove) none fields
  let prefixes ← readField "prefixes" (decodeList decodeRule) [] fields
  return { state, primary, source, target, cutover, ramp, names, cold, tier, lifecycle, created,
           readOnly, rejectWrites, watch, barrier, legs, owners, keyHash, move, prefixes }

def Placement.unmarshalJSON (value : Json) : Except String Placement := do
  let p ← decodeRecord value
  p.fromV2

def coerced (k : Key) : Key := bytesOf (textOf k)

def RampHold.coerced (h : RampHold) : RampHold :=
  { h with prefixes := h.prefixes.map Directory.coerced }

def Ramp.coerced (r : Ramp) : Ramp :=
  { r with
    prefixes := r.prefixes.map Directory.coerced
    hold := r.hold.map RampHold.coerced }

def Move.coerced (m : Move) : Move :=
  { m with scope := Directory.coerced m.scope, ramp := m.ramp.map Ramp.coerced }

def PrefixRule.coerced (rule : PrefixRule) : PrefixRule :=
  { rule with pre := Directory.coerced rule.pre }

def Placement.coerced (p : Placement) : Placement :=
  { p with
    ramp := p.ramp.map Ramp.coerced
    move := p.move.map Move.coerced
    prefixes := p.prefixes.map PrefixRule.coerced
    legClusters := ∅ }

theorem decodeRange_written (rg : HashRange) :
    decodeRange (.object (written rg.record)) = .ok rg := by
  have uniq : (rg.record.map Prod.fst).Nodup := by simp [HashRange.record]
  simp only [decodeRange, fields_object, ok_bind, readField_at 0 uniq rfl,
    readField_at 1 uniq rfl, readValue_hash]
  rfl

theorem readKeys (keys : List Key) :
    readValue (decodeList decodeBytes) [] (omitList (fun k => .text (textOf k)) keys) =
      .ok (keys.map coerced) := by
  have reads : ∀ k : Key, decodeBytes (.text (textOf k)) = .ok (coerced k) := fun _ => rfl
  exact readValue_omitList reads keys

theorem decodeHold_written (h : RampHold) :
    decodeHold (.object (written h.record)) = .ok h.coerced := by
  have uniq : (h.record.map Prod.fst).Nodup := by simp [RampHold.record]
  simp only [decodeHold, fields_object, ok_bind, readField_at 0 uniq rfl,
    readField_at 1 uniq rfl, readValue_omitNumber, readKeys]
  rfl

theorem decodeRamp_written (r : Ramp) :
    decodeRamp (.object (written r.record)) = .ok r.coerced := by
  have uniq : (r.record.map Prod.fst).Nodup := by simp [Ramp.record]
  simp only [decodeRamp, fields_object, ok_bind, readField_at 0 uniq rfl,
    readField_at 1 uniq rfl, readField_at 2 uniq rfl, readField_at 3 uniq rfl,
    readField_at 4 uniq rfl, readValue_text, readValue_omitNumber, readKeys,
    readValue_pointer decodeRange_written, readValue_pointer decodeHold_written, Option.map_id']
  rfl

theorem decodeCutover_written (ev : CutoverEvidence) :
    decodeCutover (.object (written ev.record)) = .ok ev := by
  have uniq : (ev.record.map Prod.fst).Nodup := by simp [CutoverEvidence.record]
  have window : readValue decodeInt 0 (some (.number (.num ev.window))) = .ok ev.window :=
    decodeInt_number ev.window
  simp only [decodeCutover, fields_object, ok_bind, readField_at 0 uniq rfl,
    readField_at 1 uniq rfl, readField_at 2 uniq rfl, window]
  rfl

theorem decodeLeg_written (l : Leg) : decodeLeg (.object (written l.record)) = .ok l := by
  have uniq : (l.record.map Prod.fst).Nodup := by simp [Leg.record]
  simp only [decodeLeg, fields_object, ok_bind, readField_at 0 uniq rfl,
    readField_at 1 uniq rfl, readValue_text]
  rfl

theorem decodeOwner_written (o : Owner) : decodeOwner (.object (written o.record)) = .ok o := by
  have uniq : (o.record.map Prod.fst).Nodup := by simp [Owner.record]
  simp only [decodeOwner, fields_object, ok_bind, readField_at 0 uniq rfl,
    readField_at 1 uniq rfl, readField_at 2 uniq rfl, readValue_hash, readValue_text]
  rfl

theorem decodeRule_written (rule : PrefixRule) :
    decodeRule (.object (written rule.record)) = .ok rule.coerced := by
  have uniq : (rule.record.map Prod.fst).Nodup := by simp [PrefixRule.record]
  have owners : readValue (decodeList decodeOwner) []
      (some (.array (rule.owners.map fun o => .object (written o.record)))) = .ok rule.owners := by
    have all := decodeList_array decodeOwner_written rule.owners
    rw [List.map_id'] at all
    exact all
  simp only [decodeRule, fields_object, ok_bind, readField_at 0 uniq rfl,
    readField_at 1 uniq rfl, owners]
  rfl

theorem decodeMove_written (m : Move) :
    decodeMove (.object (written m.record)) = .ok m.coerced := by
  have uniq : (m.record.map Prod.fst).Nodup := by simp [Move.record]
  have range : readValue decodeRange ⟨0, 0⟩ (some (.object (written m.range.record))) =
      .ok m.range := decodeRange_written m.range
  simp only [decodeMove, fields_object, ok_bind, readField_at 0 uniq rfl,
    readField_at 1 uniq rfl, readField_at 2 uniq rfl, readField_at 3 uniq rfl,
    readField_at 4 uniq rfl, readField_at 5 uniq rfl, readValue_omitBytes, range,
    readValue_text, readValue_pointer decodeRamp_written,
    readValue_pointer decodeCutover_written, Option.map_id']
  rfl

theorem decodeBarrier_written (b : Barrier) :
    decodeBarrier (.object (written (barrierRecord b))) = .ok b := by
  have uniq : ((barrierRecord b).map Prod.fst).Nodup := by simp [barrierRecord]
  have kind : readValue decodeKind .mutations (some (.text b.kind.text)) = .ok b.kind := by
    cases b.kind <;> rfl
  simp only [decodeBarrier, fields_object, ok_bind, readField_at 0 uniq rfl,
    readField_at 1 uniq rfl, readValue_text, kind]
  rfl

theorem decodeRecord_tree (p : Placement) : decodeRecord p.tree = .ok p.coerced := by
  have uniq : (p.record.map Prod.fst).Nodup := by simp [Placement.record]
  have state : readValue decodeState .active (some (.text p.state.text)) = .ok p.state := by
    cases p.state <;> rfl
  have reads : ∀ s : String, decodeText (.text s) = .ok s := fun _ => rfl
  have names := readValue_omitMap reads p.names
  simp only [decodeRecord, Placement.tree, fields_object, ok_bind,
    readField_at 0 uniq rfl, readField_at 1 uniq rfl, readField_at 2 uniq rfl,
    readField_at 3 uniq rfl, readField_at 4 uniq rfl, readField_at 5 uniq rfl,
    readField_at 6 uniq rfl, readField_at 7 uniq rfl, readField_at 8 uniq rfl,
    readField_at 9 uniq rfl, readField_at 10 uniq rfl, readField_at 11 uniq rfl,
    readField_at 12 uniq rfl, readField_at 13 uniq rfl, readField_at 14 uniq rfl,
    readField_at 15 uniq rfl, readField_at 16 uniq rfl, readField_at 17 uniq rfl,
    readField_at 18 uniq rfl, readField_at 19 uniq rfl, state, names,
    readValue_omitText, readValue_omitFlag, readValue_omitTime,
    readValue_pointer decodeCutover_written, readValue_pointer decodeRamp_written,
    readValue_pointer decodeBarrier_written, readValue_pointer decodeMove_written,
    readValue_omitMap decodeLeg_written, readValue_omitList decodeOwner_written,
    readValue_omitList decodeRule_written, Option.map_id', List.map_id']
  rfl

theorem unmarshalJSON_tree (p : Placement) : Placement.unmarshalJSON p.tree = p.coerced.fromV2 := by
  rw [Placement.unmarshalJSON, decodeRecord_tree]
  rfl

end Shunt.Directory
