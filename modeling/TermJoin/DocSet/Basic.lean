import Std.Data.HashSet
import TermJoin.DocSet.Ascending

/-!
# Sets of documents

A finite set of ordinals in one of three encodings, which differ in cost and never in membership.

* `DocSet.contains`, `DocSet.intersects`, `DocSet.beq`: questions about members, answered in the way
  that suits the encodings at hand.
* `DocSet.toSorted`, `DocSet.toHashed`, `DocSet.toBits`: the same members in another encoding.
* `DocSet.without`: the members that a bitmap does not have, in the same encoding.
-/

namespace TermJoin

/-- How the members of a set are kept. -/
inductive Encoding
  | sorted
  | hashed
  | bits
deriving DecidableEq

/-- The short name of the encoding. -/
def Encoding.name : Encoding → String
  | sorted => "sorted"
  | hashed => "hash"
  | bits => "bits"

/-- A finite set of ordinals: an ascending array for a small one, a hash set for probing, and a bitmap
for a large one. -/
inductive DocSet
  | sorted (docs : Ascending)
  | hashed (docs : Std.HashSet Nat)
  | bits (docs : Bitmap)

namespace DocSet

/-- The set without members. -/
def empty : DocSet := sorted .empty

instance : Inhabited DocSet := ⟨empty⟩

/-- The sorted set of ordinals given in any order. -/
def ofList (docs : List Nat) : DocSet := sorted (.ofList docs)

/-- The encoding of the set. -/
def encoding : DocSet → Encoding
  | sorted _ => .sorted
  | hashed _ => .hashed
  | bits _ => .bits

/-- The number of members. -/
def size : DocSet → Nat
  | sorted docs => docs.size
  | hashed docs => docs.size
  | bits docs => docs.size

/-- Whether there is no member. -/
def isEmpty (set : DocSet) : Bool := set.size == 0

/-- Whether the ordinal is a member. -/
def contains : DocSet → Nat → Bool
  | sorted docs, d => docs.contains d
  | hashed docs, d => docs.contains d
  | bits docs, d => docs.contains d

/-- The members, ascending unless they are hashed. -/
def toList : DocSet → List Nat
  | sorted docs => docs.toList
  | hashed docs => docs.toList
  | bits docs => docs.toList

/-- The bitmap with the flags of the members set too. -/
def unionInto (set : DocSet) (flags : Bitmap) : Bitmap :=
  match set with
  | bits docs => flags ∪ docs
  | _ => flags.insertAll set.toList

/-! ## Encodings -/

/-- A hash set lists no member twice, so sorting makes the list of its members strictly ascending. -/
theorem nodup_toList_hashed (docs : Std.HashSet Nat) : docs.toList.Nodup :=
  docs.distinct_toList.imp fun h => by simpa using h

/-- The members as an ascending array. -/
def toAscending : DocSet → Ascending
  | sorted docs => docs
  | hashed docs => .ofDistinct docs.toList (nodup_toList_hashed docs)
  | bits docs => .ofBitmap docs

/-- The members, ascending. -/
def toSortedList (set : DocSet) : List Nat := set.toAscending.toList

/-- The members as a bitmap. -/
def toBitmap : DocSet → Bitmap
  | bits docs => docs
  | set => set.unionInto ∅

/-- The same members, sorted. -/
def toSorted (set : DocSet) : DocSet := sorted set.toAscending

/-- The same members, hashed. -/
def toHashed : DocSet → DocSet
  | hashed docs => hashed docs
  | set => hashed (.ofList set.toList)

/-- The same members, as a bitmap. -/
def toBits (set : DocSet) : DocSet := bits set.toBitmap

/-! ## Two sets -/

/-- Whether two ascending lists share an element, by walking both at once. -/
def meet : List Nat → List Nat → Bool
  | a :: as, b :: bs =>
    if a < b then meet as (b :: bs)
    else if b < a then meet (a :: as) bs
    else true
  | _, _ => false
termination_by as bs => as.length + bs.length

/-- Whether some member is flagged. -/
def overlaps (set : DocSet) (flags : Bitmap) : Bool := set.toList.any flags.contains

/-- Whether the two sets share a member. The shared members are never collected. -/
def intersects : DocSet → DocSet → Bool
  | bits a, bits b => (bits a).overlaps b
  | sorted a, sorted b => meet a.toList b.toList
  | a, b =>
    if a.size ≤ b.size then a.toList.any b.contains
    else b.toList.any a.contains

/-- Whether the two sets have the same members. -/
def beq (a b : DocSet) : Bool :=
  a.size == b.size && a.toList.all b.contains

instance : BEq DocSet := ⟨beq⟩

/-- The members that are not flagged, in the same encoding. A set without flagged members stays as it
is. -/
def without (set : DocSet) (removed : Bitmap) : DocSet :=
  if removed.isEmpty || !set.overlaps removed then set
  else
    match set with
    | sorted docs => sorted (docs.filter (!removed.contains ·))
    | hashed docs => hashed (docs.filter (!removed.contains ·))
    | bits docs => bits (docs \ removed)

/-- The encoding and the members, ascending. -/
def describe (set : DocSet) : String :=
  "DocSet::" ++ set.encoding.name ++ "\x7b" ++
    ", ".intercalate (set.toSortedList.map toString) ++ "\x7d"

end DocSet

end TermJoin
