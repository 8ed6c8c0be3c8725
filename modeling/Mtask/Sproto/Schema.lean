import Mathlib.Data.Int.Notation
import Mathlib.Data.List.Pairwise
import Mathlib.Tactic.Common

/-!
# Types of sproto

The types that `sproto.c` encodes and decodes by. A type carries its fields in the order of their
tags, the tag of the first one if the tags have no gap, and the largest number of records that the
header of a message can have.
-/

namespace Mtask.Sproto

/-- `f->type` less `SPROTO_TARRAY`; a structure comes with `f->st`, the index of a type. -/
inductive FieldType
  | integer
  | boolean
  | string
  | struct (st : ℕ)
  deriving DecidableEq, Repr

/-- `struct field`; `array` is the bit `SPROTO_TARRAY` of the type. -/
structure Field where
  tag : ℕ
  type : FieldType
  array : Bool
  name : List UInt8
  key : Option ℕ
  deriving DecidableEq, Repr

/-- How many tags are followed by a gap, with `next` the first tag that may come. -/
def gaps (next : ℕ) : List Field → ℕ
  | [] => 0
  | f :: fs => (if next < f.tag then 1 else 0) + gaps (f.tag + 1) fs

/-- `t->base`: the first tag if the tags have no gap behind it, `-1` if they have one. -/
def baseOf : List Field → ℤ
  | [] => 0
  | f :: fs =>
    if ((fs.getLast?.getD f).tag : ℤ) - f.tag + 1 = (f :: fs).length then f.tag else -1

/-- `struct sproto_type`; `t->n` is the length of `f`. -/
structure TypeData where
  name : List UInt8
  f : List Field
  base : ℤ
  maxn : ℕ
  deriving DecidableEq, Repr

/-- The fields are in the order of their tags, and the other members agree with them. -/
structure TypeData.Consistent (t : TypeData) : Prop where
  ascending : t.f.Pairwise (·.tag < ·.tag)
  tag_lt : ∀ x ∈ t.f, x.tag < 0x7fff
  base_eq : t.base = baseOf t.f
  maxn_eq : t.maxn = t.f.length + gaps 0 t.f

/-- A type whose members agree with each other. -/
structure SprotoType extends TypeData where
  consistent : toTypeData.Consistent

namespace SprotoType

theorem ascending (st : SprotoType) : st.f.Pairwise (·.tag < ·.tag) := st.consistent.ascending

theorem maxn_eq (st : SprotoType) : st.maxn = st.f.length + gaps 0 st.f := st.consistent.maxn_eq

/-- The loop of `findtag` between `begin` and `end`, which are `lo` and `hi` here. -/
def searchTag (f : List Field) (tag : ℕ) (lo hi : ℕ) : Option Field :=
  if lo < hi then
    match f[(lo + hi) / 2]? with
    | some x =>
      if x.tag = tag then some x
      else if x.tag < tag then searchTag f tag ((lo + hi) / 2 + 1) hi
      else searchTag f tag lo ((lo + hi) / 2)
    | none => none
  else none
termination_by hi - lo

/-- `findtag` -/
def findtag (st : SprotoType) (tag : ℕ) : Option Field :=
  if 0 ≤ st.base then
    let tag := (tag : ℤ) - st.base
    if tag < 0 ∨ (st.f.length : ℤ) ≤ tag then none else st.f[tag.toNat]?
  else searchTag st.f tag 0 st.f.length

end SprotoType

end Mtask.Sproto
