import TacticalMesh.ByteStrings

namespace TacticalMesh
set_option autoImplicit true

/-- A serialization that can be read back, whatever follows it, of the values that it has room
for. -/
structure Bincode (α : Type) where
  serialize : α → Bytes
  deserialize : Bytes → Option (α × Bytes)
  fits : α → Bool
  deserialize_serialize (a : α) (h : fits a) (rest : Bytes) :
    deserialize (serialize a ++ rest) = some (a, rest)

namespace Bincode

def unit : Bincode Unit where
  serialize _ := []
  deserialize bs := some ((), bs)
  fits _ := true
  deserialize_serialize _ _ _ := rfl

def byte : Bincode UInt8 where
  serialize b := [b]
  deserialize
    | [] => none
    | b :: bs => some (b, bs)
  fits _ := true
  deserialize_serialize _ _ _ := rfl

def within (s : Bincode α) (f : β → α) (g : α → Option β) (h : ∀ b, g (f b) = some b) :
    Bincode β where
  serialize b := s.serialize (f b)
  deserialize bs := (s.deserialize bs).bind fun p => (g p.1).map fun b => (b, p.2)
  fits b := s.fits (f b)
  deserialize_serialize b hb rest := by
    rw [s.deserialize_serialize _ hb, Option.bind_some, h, Option.map_some]

def map (s : Bincode α) (f : β → α) (g : α → β) (h : ∀ b, g (f b) = b) : Bincode β :=
  s.within f (fun a => some (g a)) fun b => congrArg some (h b)

def pair (s : Bincode α) (t : Bincode β) : Bincode (α × β) where
  serialize p := s.serialize p.1 ++ t.serialize p.2
  deserialize bs := (s.deserialize bs).bind fun p =>
    (t.deserialize p.2).map fun q => ((p.1, q.1), q.2)
  fits p := s.fits p.1 && t.fits p.2
  deserialize_serialize p h rest := by
    rw [Bool.and_eq_true] at h
    rw [List.append_assoc, s.deserialize_serialize _ h.1, Option.bind_some,
      t.deserialize_serialize _ h.2, Option.map_some]

def fixed (w : ℕ) (toNat : α → ℕ) (ofNat : ℕ → α) (fits : α → Bool)
    (h : ∀ a, fits a → ofNat (toNat a % 256 ^ w) = a) : Bincode α where
  serialize a := leBytes w (toNat a)
  deserialize bs := if w ≤ bs.length then some (ofNat (leValue (bs.take w)), bs.drop w) else none
  fits := fits
  deserialize_serialize a ha rest := by
    have hlen : (leBytes w (toNat a)).length = w := length_leBytes w _
    have hle : w ≤ (leBytes w (toNat a) ++ rest).length := by
      rw [List.length_append, hlen]
      exact Nat.le_add_right w _
    rw [if_pos hle, List.take_left' hlen, List.drop_left' hlen, leValue_leBytes, h a ha]

def u16 : Bincode UInt16 := fixed 2 UInt16.toNat UInt16.ofNat (fun _ => true) fun a _ => by
  have h : a.toNat < 256 ^ 2 := a.toNat_lt
  rw [Nat.mod_eq_of_lt h, UInt16.ofNat_toNat]

def u32 : Bincode UInt32 := fixed 4 UInt32.toNat UInt32.ofNat (fun _ => true) fun a _ => by
  have h : a.toNat < 256 ^ 4 := a.toNat_lt
  rw [Nat.mod_eq_of_lt h, UInt32.ofNat_toNat]

def u64 : Bincode ℕ := fixed 8 id id (fun n => n < 256 ^ 8) fun _ ha =>
  Nat.mod_eq_of_lt (of_decide_eq_true ha)

def i8 : Bincode Int8 := byte.map Int8.toUInt8 UInt8.toInt8 fun a => a.toInt8_toUInt8

def readUnary : Bytes → Option (ℕ × Bytes)
  | [] => none
  | b :: bs => if b = 0 then some (0, bs) else (readUnary bs).map fun p => (p.1 + 1, p.2)

/-- A format for all numbers, which the program does not have. -/
def unary : Bincode ℕ where
  serialize n := List.replicate n 1 ++ [0]
  deserialize := readUnary
  fits _ := true
  deserialize_serialize n _ rest := by
    induction n with
    | zero => rfl
    | succ n ih =>
      rw [List.replicate_succ, List.cons_append, List.cons_append, readUnary, if_neg (by decide),
        ih, Option.map_some]

def many (s : Bincode α) : ℕ → Bytes → Option (List α × Bytes)
  | 0, bs => some ([], bs)
  | n + 1, bs => (s.deserialize bs).bind fun p =>
    (s.many n p.2).map fun q => (p.1 :: q.1, q.2)

theorem many_flatMap (s : Bincode α) (as : List α) (h : as.all s.fits) (rest : Bytes) :
    s.many as.length (as.flatMap s.serialize ++ rest) = some (as, rest) := by
  induction as with
  | nil => rfl
  | cons a as ih =>
    rw [List.all_cons, Bool.and_eq_true] at h
    rw [List.length_cons, many, List.flatMap_cons, List.append_assoc,
      s.deserialize_serialize a h.1, Option.bind_some, ih h.2, Option.map_some]

/-- A list is preceded by its length. -/
def list (number : Bincode ℕ) (s : Bincode α) : Bincode (List α) where
  serialize as := number.serialize as.length ++ as.flatMap s.serialize
  deserialize bs := (number.deserialize bs).bind fun p => s.many p.1 p.2
  fits as := number.fits as.length && as.all s.fits
  deserialize_serialize as h rest := by
    rw [Bool.and_eq_true] at h
    rw [List.append_assoc, number.deserialize_serialize _ h.1, Option.bind_some,
      s.many_flatMap as h.2]

def string (number : Bincode ℕ) : Bincode String :=
  (list number byte).within (fun s => s.toUTF8.data.toList)
    (fun bs => String.fromUTF8? ⟨bs.toArray⟩) fun s => dif_pos s.isValidUTF8

structure Variant (α : Type) where
  Payload : Type
  payload : Bincode Payload
  build : Payload → α
  get : α → Option Payload
  build_get (a : α) (b : Payload) : get a = some b → build b = a

namespace Variant

def tuple (payload : Bincode β) (build : β → α) (get : α → Option β)
    (build_get : ∀ a b, get a = some b → build b = a := by
      intro a b h
      cases a <;> cases h <;> rfl) : Variant α :=
  ⟨β, payload, build, get, build_get⟩

def bare [DecidableEq α] (a : α) : Variant α where
  Payload := Unit
  payload := unit
  build _ := a
  get x := if x = a then some () else none
  build_get x _ h := by
    split at h
    next hx => exact hx.symm
    next => cases h

/-- The index of the variant, then what it carries. -/
def serialize (i : ℕ) : List (Variant α) → α → Bytes
  | [], _ => []
  | v :: vs, a =>
    match v.get a with
    | some b => leBytes 4 i ++ v.payload.serialize b
    | none => serialize (i + 1) vs a

def deserialize (vs : List (Variant α)) (bs : Bytes) : Option (α × Bytes) :=
  (u32.deserialize bs).bind fun p =>
    vs[p.1.toNat]?.bind fun v =>
      (v.payload.deserialize p.2).map fun q => (v.build q.1, q.2)

def fits : List (Variant α) → α → Bool
  | [], _ => false
  | v :: vs, a =>
    match v.get a with
    | some b => v.payload.fits b
    | none => fits vs a

theorem serialize_eq (vs : List (Variant α)) (a : α) (h : fits vs a) :
    ∃ j v b, vs[j]? = some v ∧ v.get a = some b ∧ v.payload.fits b ∧
      serialize i vs a = leBytes 4 (i + j) ++ v.payload.serialize b := by
  induction vs generalizing i with
  | nil => cases h
  | cons v vs ih =>
    rw [fits] at h
    rw [serialize]
    split at h
    next b hb => exact ⟨0, v, b, rfl, hb, h, rfl⟩
    next hnone =>
      obtain ⟨j, v', b, hj, hb, hfits, heq⟩ := ih (i := i + 1) h
      refine ⟨j + 1, v', b, hj, hb, hfits, ?_⟩
      rw [heq, Nat.add_assoc, Nat.add_comm 1]

end Variant

def enum (vs : List (Variant α)) (hlen : vs.length < 2 ^ 32) : Bincode α where
  serialize := Variant.serialize 0 vs
  deserialize := Variant.deserialize vs
  fits := Variant.fits vs
  deserialize_serialize a h rest := by
    obtain ⟨j, v, b, hj, hb, hfits, heq⟩ := Variant.serialize_eq (i := 0) vs a h
    have hlt : j < 2 ^ 32 := ((List.getElem?_eq_some_iff.1 hj).1).trans hlen
    have htag : (UInt32.ofNat j).toNat = j := by
      rw [UInt32.toNat_ofNat', Nat.mod_eq_of_lt hlt]
    have hserialize : u32.serialize (UInt32.ofNat j) = leBytes 4 j := congrArg (leBytes 4) htag
    rw [heq, Nat.zero_add, ← hserialize, List.append_assoc, Variant.deserialize,
      u32.deserialize_serialize _ rfl, Option.bind_some, htag, hj, Option.bind_some,
      v.payload.deserialize_serialize b hfits, Option.map_some, v.build_get a b hb]

theorem deserialize_enum {vs : List (Variant α)} (hlen : vs.length < 2 ^ 32) (bs : Bytes) :
    (enum vs hlen).deserialize bs = Variant.deserialize vs bs :=
  rfl

def Total (s : Bincode α) : Prop := ∀ a, s.fits a

theorem total_unit : unit.Total := fun _ => rfl

theorem total_byte : byte.Total := fun _ => rfl

theorem total_u16 : u16.Total := fun _ => rfl

theorem total_u32 : u32.Total := fun _ => rfl

theorem total_unary : unary.Total := fun _ => rfl

theorem Total.within {s : Bincode α} (hs : s.Total) (h : ∀ b, g (f b) = some b) :
    (s.within f g h).Total := fun b => hs (f b)

theorem Total.map {s : Bincode α} (hs : s.Total) (h : ∀ b, g (f b) = b) :
    (s.map f g h).Total := fun b => hs (f b)

theorem total_i8 : i8.Total := total_byte.map _

theorem Total.pair {s : Bincode α} {t : Bincode β} (hs : s.Total) (ht : t.Total) :
    (s.pair t).Total := fun p => Bool.and_eq_true_iff.2 ⟨hs p.1, ht p.2⟩

theorem Total.list {number : Bincode ℕ} {s : Bincode α} (hnumber : number.Total) (hs : s.Total) :
    (Bincode.list number s).Total := fun as =>
  Bool.and_eq_true_iff.2 ⟨hnumber as.length, List.all_eq_true.2 fun a _ => hs a⟩

theorem Variant.total_bare [DecidableEq α] (a : α) : (Variant.bare a).payload.Total := total_unit

theorem total_enum {vs : List (Variant α)} (hlen : vs.length < 2 ^ 32)
    (hall : ∀ a, ∃ v ∈ vs, (v.get a).isSome) (hvs : ∀ v ∈ vs, v.payload.Total) :
    (enum vs hlen).Total := by
  intro a
  change Variant.fits vs a
  have ha := hall a
  clear hall
  induction vs with
  | nil =>
    obtain ⟨v, hv, -⟩ := ha
    cases hv
  | cons v vs ih =>
    rw [Variant.fits]
    split
    next b hb => exact hvs v (List.mem_cons_self ..) b
    next hnone =>
      refine ih (Nat.lt_of_succ_lt hlen) (fun w hw => hvs w (List.mem_cons_of_mem _ hw)) ?_
      obtain ⟨w, hw, hsome⟩ := ha
      rcases List.mem_cons.1 hw with rfl | hw
      · rw [hnone] at hsome
        cases hsome
      · exact ⟨w, hw, hsome⟩

/-- The greatest tag, which no enumeration has a variant for. -/
def noVariant : Bytes := [255, 255, 255, 255]

theorem serialize_noVariant : u32.serialize (.ofNat (2 ^ 32 - 1)) = noVariant := by decide

theorem deserialize_noVariant {vs : List (Variant α)} (hlen : vs.length < 2 ^ 32) (rest : Bytes) :
    (enum vs hlen).deserialize (noVariant ++ rest) = none := by
  have hout : vs[(UInt32.ofNat (2 ^ 32 - 1)).toNat]? = none :=
    List.getElem?_eq_none (Nat.le_of_lt_succ hlen)
  rw [deserialize_enum, Variant.deserialize, ← serialize_noVariant, u32.deserialize_serialize _ rfl,
    Option.bind_some, hout, Option.bind_none]

/-- The values that the program has no room for go behind the tag, in a format that has. -/
def withEscape (s t : Bincode α) (a : α) : Bytes :=
  if s.fits a then s.serialize a else noVariant ++ t.serialize a

def readWithEscape (s t : Bincode α) (bs : Bytes) : Option α :=
  match s.deserialize bs with
  | some p => some p.1
  | none => if bs.take 4 = noVariant then (t.deserialize (bs.drop 4)).map Prod.fst else none

theorem readWithEscape_withEscape {s t : Bincode α}
    (hs : ∀ rest, s.deserialize (noVariant ++ rest) = none) (ht : t.Total) (a : α) :
    s.readWithEscape t (s.withEscape t a) = some a := by
  rw [withEscape, readWithEscape]
  by_cases h : s.fits a
  · have hread := s.deserialize_serialize a h []
    rw [List.append_nil] at hread
    rw [if_pos h, hread]
  · have hread := t.deserialize_serialize a (ht a) []
    rw [List.append_nil] at hread
    have htake : (noVariant ++ t.serialize a).take 4 = noVariant := List.take_left' rfl
    have hdrop : (noVariant ++ t.serialize a).drop 4 = t.serialize a := List.drop_left' rfl
    rw [if_neg h, hs, htake, hdrop, hread]
    rfl

end Bincode
end TacticalMesh
