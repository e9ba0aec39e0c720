/-
JSON values, and records written to them field by field and read back.
-/

import Mathlib.Data.List.Nodup
import Std.Data.ExtTreeMap
import Shunt.Library.Number

namespace Shunt.Library

open List Std.ExtTreeMap

def runes : Nat → List UInt8 → List Char
  | 0, _ => []
  | _ + 1, [] => []
  | fuel + 1, b :: rest =>
    match (b :: rest).toByteArray.utf8DecodeChar? 0 with
    | some c => c :: runes fuel ((b :: rest).drop c.utf8Size)
    | none => '�' :: runes fuel rest

def textOf (bytes : List UInt8) : String := String.ofList (runes bytes.length bytes)

def bytesOf (text : String) : List UInt8 := text.toByteArray.data.toList

def Utf8 (bytes : List UInt8) : Prop := bytes.toByteArray.IsValidUTF8

instance (bytes : List UInt8) : Decidable (Utf8 bytes) :=
  inferInstanceAs (Decidable bytes.toByteArray.IsValidUTF8)

theorem runes_encoded (chars : List Char) (fuel : Nat)
    (enough : (chars.flatMap String.utf8EncodeChar).length ≤ fuel) :
    runes fuel (chars.flatMap String.utf8EncodeChar) = chars := by
  induction chars generalizing fuel with
  | nil => cases fuel <;> rfl
  | cons c rest ih =>
    have size := String.length_utf8EncodeChar c
    have pos := Char.utf8Size_pos c
    rw [flatMap_cons] at enough ⊢
    cases written : String.utf8EncodeChar c with
    | nil =>
      rw [written] at size
      simp only [length_nil] at size
      omega
    | cons b more =>
      generalize later : rest.flatMap String.utf8EncodeChar = tail at enough ih ⊢
      have read : (b :: (more ++ tail)).toByteArray.utf8DecodeChar? 0 = some c := by
        rw [← cons_append, ← written, toByteArray_append]
        exact ByteArray.utf8DecodeChar?_utf8EncodeChar_append
      have left : (b :: (more ++ tail)).drop c.utf8Size = tail := by
        rw [← cons_append, ← written, drop_left' size]
      cases fuel with
      | zero =>
        rw [length_append] at enough
        omega
      | succ fuel =>
        rw [cons_append, runes, read]
        simp only [left]
        rw [ih fuel]
        rw [length_append] at enough
        omega

theorem textOf_bytesOf (s : String) : textOf (bytesOf s) = s := by
  obtain ⟨chars, rfl⟩ := String.exists_eq_ofList s
  have bytes : bytesOf (String.ofList chars) = chars.flatMap String.utf8EncodeChar := by
    rw [bytesOf, String.toByteArray_ofList, List.utf8Encode, toList_data_toByteArray]
  rw [textOf, bytes, runes_encoded chars _ (Nat.le_refl _)]

theorem bytesOf_textOf_iff {bytes : List UInt8} : bytesOf (textOf bytes) = bytes ↔ Utf8 bytes := by
  constructor
  · intro eq
    rw [Utf8, ← eq, bytesOf]
    have all : (textOf bytes).toByteArray.data.toList.toByteArray =
        (textOf bytes).toByteArray := by
      apply ByteArray.ext
      rw [data_toByteArray, Array.toArray_toList]
    rw [all]
    exact (textOf bytes).isValidUTF8
  intro valid
  have eq : bytesOf (String.ofByteArray bytes.toByteArray valid) = bytes := toList_data_toByteArray
  rw [← eq, textOf_bytesOf]

inductive Json where
  | null
  | bool (b : Bool)
  | number (x : Number)
  | time (t : Int)
  | text (s : String)
  | array (items : List Json)
  | object (fields : List (String × Json))

def written (fields : List (String × Option Json)) : List (String × Json) :=
  fields.filterMap fun f => f.2.map (Prod.mk f.1)

def Json.fields : Json → Except String (List (String × Json))
  | .object fields => .ok fields
  | .null => .ok []
  | _ => .error "json: cannot unmarshal into a record"

section

variable {α β : Type}

def readValue (decode : Json → Except String α) (zero : α) : Option Json → Except String α
  | none | some .null => .ok zero
  | some value => decode value

def readField (name : String) (decode : Json → Except String α) (zero : α)
    (fields : List (String × Json)) : Except String α :=
  readValue decode zero (fields.lookup name)

variable {fields : List (String × Option Json)}

theorem lookup_written {name : String} {value : Option Json} (uniq : (fields.map Prod.fst).Nodup)
    (mem : (name, value) ∈ fields) : (written fields).lookup name = value := by
  induction fields with
  | nil => cases mem
  | cons first rest ih =>
    rw [map_cons, nodup_cons] at uniq
    have gone : ∀ other : List (String × Option Json), name ∉ other.map Prod.fst →
        (written other).lookup name = none := by
      intro other away
      rw [lookup_eq_none_iff]
      intro entry isIn
      simp only [written, List.mem_filterMap, Option.map_eq_some_iff] at isIn
      obtain ⟨f, lt, j, -, rfl⟩ := isIn
      exact bne_iff_ne.mpr fun eq =>
        away (List.mem_map.mpr ⟨f, lt, eq.symm⟩)
    rcases mem_cons.mp mem with rfl | later
    · cases value with
      | none => exact gone rest uniq.1
      | some => simp [written]
    have other : first.1 ≠ name := fun eq =>
      uniq.1 (List.mem_map.mpr ⟨_, later, eq.symm⟩)
    rw [← ih uniq.2 later]
    obtain ⟨label, content⟩ := first
    cases content with
    | none => rfl
    | some j =>
      change ((label, j) :: written rest).lookup name = _
      rw [lookup_cons, beq_eq_false_iff_ne.mpr (Ne.symm other)]

variable {decode : Json → Except String α}

theorem readField_written {name : String} {value : Option Json} {zero : α}
    (uniq : (fields.map Prod.fst).Nodup) (mem : (name, value) ∈ fields) :
    readField name decode zero (written fields) = readValue decode zero value := by
  rw [readField, lookup_written uniq mem]

theorem readField_at {name : String} {value : Option Json} {zero : α} (index : Nat)
    (uniq : (fields.map Prod.fst).Nodup) (entry : fields[index]? = some (name, value)) :
    readField name decode zero (written fields) = readValue decode zero value :=
  readField_written uniq (mem_of_getElem? entry)

theorem ok_bind {ε : Type} (a : α) (f : α → Except ε β) : (Except.ok a >>= f) = f a := rfl

theorem fields_object (fields : List (String × Json)) : (Json.object fields).fields = .ok fields :=
  rfl

def omitText (s : String) : Option Json := if s = "" then none else some (.text s)

def omitFlag (b : Bool) : Option Json := if b then some (.bool true) else none

def omitNumber (x : Number) : Option Json := if x = 0 then none else some (.number x)

def omitTime (t : Int) : Option Json := if t = 0 then none else some (.time t)

def decodeText : Json → Except String String
  | .text s => .ok s
  | _ => .error "json: cannot unmarshal into a string"

def decodeBytes (value : Json) : Except String (List UInt8) := (decodeText value).map bytesOf

def decodeFlag : Json → Except String Bool
  | .bool b => .ok b
  | _ => .error "json: cannot unmarshal into a bool"

def decodeNumber : Json → Except String Number
  | .number x => .ok x
  | _ => .error "json: cannot unmarshal into a number"

def decodeInt (value : Json) : Except String Int :=
  match value with
  | .number (.num q) =>
    if q.den = 1 then .ok q.num else .error "json: cannot unmarshal into an integer"
  | _ => .error "json: cannot unmarshal into an integer"

def decodeTime : Json → Except String Int
  | .time t => .ok t
  | _ => .error "json: cannot unmarshal into a time"

@[simp] theorem readValue_text (s : String) :
    readValue decodeText "" (some (.text s)) = .ok s := rfl

@[simp] theorem readValue_omitText (s : String) : readValue decodeText "" (omitText s) = .ok s := by
  by_cases empty : s = ""
  · rw [omitText, if_pos empty, empty]
    rfl
  · rw [omitText, if_neg empty]
    rfl

@[simp] theorem readValue_omitBytes (bytes : List UInt8) :
    readValue decodeBytes [] (omitText (textOf bytes)) = .ok (bytesOf (textOf bytes)) := by
  by_cases empty : textOf bytes = ""
  · rw [omitText, if_pos empty, empty]
    rfl
  · rw [omitText, if_neg empty]
    rfl

@[simp] theorem readValue_omitFlag (b : Bool) :
    readValue decodeFlag false (omitFlag b) = .ok b := by
  cases b <;> rfl

@[simp] theorem readValue_omitNumber (x : Number) :
    readValue decodeNumber 0 (omitNumber x) = .ok x := by
  by_cases zero : x = 0
  · rw [omitNumber, if_pos zero, zero]
    rfl
  · rw [omitNumber, if_neg zero]
    rfl

@[simp] theorem readValue_omitTime (t : Int) : readValue decodeTime 0 (omitTime t) = .ok t := by
  by_cases zero : t = 0
  · rw [omitTime, if_pos zero, zero]
    rfl
  · rw [omitTime, if_neg zero]
    rfl

@[simp] theorem decodeInt_number (n : Int) : decodeInt (.number (.num n)) = .ok n := by
  simp [decodeInt]

def omitList (encode : α → Json) (items : List α) : Option Json :=
  if items.isEmpty then none else some (.array (items.map encode))

def decodeList (decode : Json → Except String α) : Json → Except String (List α)
  | .array items => items.mapM decode
  | _ => .error "json: cannot unmarshal into a list"

def decodePointer (decode : Json → Except String α) (value : Json) : Except String (Option α) :=
  (decode value).map some

def omitMap (encode : α → Json) (m : Std.ExtTreeMap String α) : Option Json :=
  if m.isEmpty then none else some (.object (m.toList.map fun e => (e.1, encode e.2)))

def decodeEntry (decode : Json → Except String α) (e : String × Json) :
    Except String (String × α) :=
  (decode e.2).map (Prod.mk e.1)

def decodeMap (decode : Json → Except String α) : Json → Except String (Std.ExtTreeMap String α)
  | .object fields => (fields.mapM (decodeEntry decode)).map fun es => ofList es
  | _ => .error "json: cannot unmarshal into a map"

theorem mapM_read (encode : α → β) {decode : β → Except String α} {read : α → α}
    (reads : ∀ a, decode (encode a) = .ok (read a)) (items : List α) :
    (items.map encode).mapM decode = .ok (items.map read) := by
  induction items with
  | nil => rfl
  | cons first rest ih =>
    rw [map_cons, mapM_cons, reads, ih]
    rfl

theorem decodeList_array {encode : α → Json} {read : α → α}
    (reads : ∀ a, decode (encode a) = .ok (read a)) (items : List α) :
    decodeList decode (.array (items.map encode)) = .ok (items.map read) :=
  mapM_read encode reads items

theorem readValue_omitList {encode : α → Json} {read : α → α}
    (reads : ∀ a, decode (encode a) = .ok (read a)) (items : List α) :
    readValue (decodeList decode) [] (omitList encode items) = .ok (items.map read) := by
  cases items with
  | nil => rfl
  | cons first rest => exact decodeList_array reads (first :: rest)

theorem readValue_pointer {encode : α → List (String × Option Json)} {read : α → α}
    (reads : ∀ a, decode (.object (written (encode a))) = .ok (read a)) (pointer : Option α) :
    readValue (decodePointer decode) none
      (pointer.map fun a => .object (written (encode a))) = .ok (pointer.map read) := by
  cases pointer with
  | none => rfl
  | some a =>
    change (decode (.object (written (encode a)))).map some = _
    rw [reads]
    rfl

theorem ofList_toList (m : Std.ExtTreeMap String α) : ofList m.toList = m := by
  apply Std.ExtTreeMap.ext_getElem?
  intro k
  cases got : m[k]? with
  | some =>
    exact getElem?_ofList_of_mem Std.ReflCmp.compare_self
      distinct_keys_toList
      (mem_toList_iff_getElem?_eq_some.mpr got)
  | none =>
    apply getElem?_ofList_of_contains_eq_false
    rw [contains_eq_mem, decide_eq_false_iff_not]
    intro mem
    obtain ⟨⟨key, a⟩, isIn, rfl⟩ := List.mem_map.mp mem
    rw [mem_toList_iff_getElem?_eq_some.mp isIn] at got
    cases got

theorem readValue_omitMap {encode : α → Json} (reads : ∀ a, decode (encode a) = .ok a)
    (m : Std.ExtTreeMap String α) : readValue (decodeMap decode) ∅ (omitMap encode m) = .ok m := by
  by_cases empty : m.isEmpty
  · rw [omitMap, if_pos empty, Std.ExtTreeMap.isEmpty_iff.mp empty]
    rfl
  rw [omitMap, if_neg empty]
  have reads_entry : ∀ e : String × α, decodeEntry decode (e.1, encode e.2) = .ok (id e) := by
    intro e
    rw [decodeEntry, reads]
    rfl
  change ((m.toList.map fun e => (e.1, encode e.2)).mapM (decodeEntry decode)).map
    (fun es => ofList es) = _
  rw [mapM_read _ reads_entry, List.map_id]
  change Except.ok (ofList m.toList) = _
  rw [ofList_toList]

end

end Shunt.Library
