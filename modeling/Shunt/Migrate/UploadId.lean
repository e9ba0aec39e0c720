/-
The upload ids a client sees: the backend's id behind the id of the cluster that
issued it, and a tag of the bucket where a request's two buckets share a cluster.
The digests that name clusters and tag buckets are parameters; only their shape,
six lowercase hexadecimal digits, is used.
-/

import Shunt.Directory.Placement
import Shunt.Library.Query

namespace Shunt.Migrate

open Directory List
open Library (cut cut_free cut_joined)

def idLen : Nat := 6

def isLowerHex (s : Key) : Bool := s.all fun c => (48 ≤ c && c ≤ 57) || (97 ≤ c && c ≤ 102)

/-- The first six hexadecimal digits of a hash of a name. -/
structure Digest where
  of : String → Key
  length : ∀ name, (of name).length = idLen
  hex : ∀ name, isLowerHex (of name) = true

def splitUploadPrefix (pre : Key) : Key × Key := cut 46 pre

def encodeUploadID (pre backendID : Key) : Key :=
  if backendID = [] then [] else pre ++ 126 :: backendID

def prefixShaped (v : Key) (i : Nat) : Bool :=
  (decide (i = idLen) && isLowerHex (v.take i)) ||
    (decide (i = 2 * idLen + 1) && decide (v[idLen]? = some 46) && isLowerHex (v.take idLen) &&
      isLowerHex ((v.take i).drop (idLen + 1)))

def decodeUploadID (v : Key) : Option (Key × Key) :=
  match v.idxOf? 126 with
  | none => none
  | some i => if prefixShaped v i then some (v.take i, v.drop (i + 1)) else none

variable (clusterID bucketTag : Digest)

def prefixOf (bucket : Leg) (tagged : Bool) : Key :=
  if tagged then clusterID.of bucket.cluster ++ 46 :: bucketTag.of bucket.bucket
  else clusterID.of bucket.cluster

variable {clusterID bucketTag}

theorem isLowerHex_not_mem {s : Key} {c : UInt8} (hex : isLowerHex s)
    (other : ((48 ≤ c && c ≤ 57) || (97 ≤ c && c ≤ 102)) = false) : c ∉ s := by
  intro mem
  have digit := List.all_eq_true.mp hex c mem
  rw [other] at digit
  cases digit

theorem Digest.not_mem (digest : Digest) (name : String) {c : UInt8}
    (other : ((48 ≤ c && c ≤ 57) || (97 ≤ c && c ≤ 102)) = false) : c ∉ digest.of name :=
  isLowerHex_not_mem (digest.hex name) other

theorem Digest.ne_nil (digest : Digest) (name : String) : digest.of name ≠ [] := by
  intro empty
  have length := digest.length name
  rw [empty] at length
  cases length

theorem idxOf_tilde {pre x : Key} (free : 126 ∉ pre) :
    (pre ++ 126 :: x).idxOf? 126 = some pre.length := by
  induction pre with
  | nil => rfl
  | cons c rest ih =>
    rw [mem_cons, not_or] at free
    rw [cons_append, idxOf?_cons, if_neg (by simpa using Ne.symm free.1), ih free.2]
    rfl

theorem decode_shaped {pre x : Key} (free : 126 ∉ pre)
    (shaped : prefixShaped (pre ++ 126 :: x) pre.length) :
    decodeUploadID (pre ++ 126 :: x) = some (pre, x) := by
  unfold decodeUploadID
  rw [idxOf_tilde free]
  simp only [shaped, if_true, take_left', Option.some.injEq, Prod.mk.injEq, true_and]
  rw [drop_append]
  simp

theorem prefixOf_ne_nil (bucket : Leg) (tagged : Bool) :
    prefixOf clusterID bucketTag bucket tagged ≠ [] := by
  cases tagged with
  | false => exact clusterID.ne_nil _
  | true => simp [prefixOf]

theorem decodeUploadID_prefixOf (bucket : Leg) (tagged : Bool) (x : Key) :
    decodeUploadID (prefixOf clusterID bucketTag bucket tagged ++ 126 :: x) =
      some (prefixOf clusterID bucketTag bucket tagged, x) := by
  have idLength := clusterID.length bucket.cluster
  have idHex := clusterID.hex bucket.cluster
  have idFree := clusterID.not_mem bucket.cluster (c := 126) rfl
  cases tagged with
  | false =>
    refine decode_shaped idFree ?_
    simp [prefixShaped, prefixOf, idLength, idHex]
  | true =>
    have tagLength := bucketTag.length bucket.bucket
    have tagHex := bucketTag.hex bucket.bucket
    have tagFree := bucketTag.not_mem bucket.bucket (c := 126) rfl
    have free : 126 ∉ prefixOf clusterID bucketTag bucket true := by
      simp [prefixOf, idFree, tagFree]
    refine decode_shaped free ?_
    have length : (prefixOf clusterID bucketTag bucket true).length = 2 * idLen + 1 := by
      simp [prefixOf, idLength, tagLength, idLen]
    have taken : (prefixOf clusterID bucketTag bucket true ++ 126 :: x).take
        (2 * idLen + 1) = prefixOf clusterID bucketTag bucket true := by
      rw [← length, take_left']
      rfl
    have first : (prefixOf clusterID bucketTag bucket true ++ 126 :: x).take idLen =
        clusterID.of bucket.cluster := by
      simp only [prefixOf, if_true, append_assoc]
      rw [take_left' idLength]
    have dot : (prefixOf clusterID bucketTag bucket true ++ 126 :: x)[idLen]? = some 46 := by
      simp only [prefixOf, if_true, append_assoc]
      rw [getElem?_append_right (by rw [idLength]), idLength]
      rfl
    have last : (prefixOf clusterID bucketTag bucket true).drop (idLen + 1) =
        bucketTag.of bucket.bucket := by
      simp only [prefixOf, if_true]
      rw [← idLength, drop_append]
      simp
    rw [prefixShaped, length, taken, first, last, dot, idHex, tagHex]
    rfl

theorem splitUploadPrefix_prefixOf (bucket : Leg) (tagged : Bool) :
    splitUploadPrefix (prefixOf clusterID bucketTag bucket tagged) =
      (clusterID.of bucket.cluster, if tagged then bucketTag.of bucket.bucket else []) := by
  have dotFree := clusterID.not_mem bucket.cluster (c := 46) rfl
  cases tagged with
  | true => exact cut_joined dotFree
  | false => exact cut_free dotFree

def sampleDigest : Digest where
  of name := if name = "east" ∨ name = "acme-photos" then List.replicate 6 97
    else List.replicate 6 98
  length name := by split <;> rfl
  hex name := by split <;> decide

end Shunt.Migrate
