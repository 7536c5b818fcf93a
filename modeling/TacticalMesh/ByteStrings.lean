import Mathlib.Algebra.Order.Group.Nat
import Mathlib.Tactic.Ring

namespace TacticalMesh
set_option autoImplicit true

abbrev Bytes := List UInt8

def leBytes : ℕ → ℕ → Bytes
  | 0, _ => []
  | w + 1, n => UInt8.ofNat n :: leBytes w (n / 256)

def leValue : Bytes → ℕ
  | [] => 0
  | b :: bs => b.toNat + 256 * leValue bs

@[simp] theorem length_leBytes (w n : ℕ) : (leBytes w n).length = w := by
  induction w generalizing n with
  | zero => rfl
  | succ w ih => rw [leBytes, List.length_cons, ih]

theorem leValue_leBytes (w n : ℕ) : leValue (leBytes w n) = n % 256 ^ w := by
  induction w generalizing n with
  | zero => rw [leBytes, leValue, pow_zero, Nat.mod_one]
  | succ w ih =>
    have hb : (UInt8.ofNat n).toNat = n % 256 := UInt8.toNat_ofNat'
    rw [leBytes, leValue, ih, hb, pow_succ', Nat.mod_mul]

theorem leValue_lt (bs : Bytes) : leValue bs < 256 ^ bs.length := by
  induction bs with
  | nil => exact Nat.one_pos
  | cons b bs ih =>
    have hb := b.toNat_lt
    rw [leValue, List.length_cons, pow_succ']
    omega

theorem leBytes_leValue (bs : Bytes) : leBytes bs.length (leValue bs) = bs := by
  induction bs with
  | nil => rfl
  | cons b bs ih =>
    have hb := b.toNat_lt
    have hlow : UInt8.ofNat (b.toNat + 256 * leValue bs) = b := by
      apply UInt8.toNat_inj.1
      rw [UInt8.toNat_ofNat']
      omega
    have hhigh : (b.toNat + 256 * leValue bs) / 256 = leValue bs := by omega
    rw [List.length_cons, leBytes, leValue, hlow, hhigh, ih]

/-- What slicing and indexing do when the bounds are wrong is not an error value but a panic. -/
inductive Fault (E : Type) where
  | error (e : E)
  | panic
  deriving DecidableEq, Repr

abbrev Checked (E α : Type) := Except (Fault E) α

def byteAt (bs : Bytes) (i : ℕ) : Checked E UInt8 :=
  match bs[i]? with
  | some b => .ok b
  | none => .error .panic

def slice (bs : Bytes) (i j : ℕ) : Checked E Bytes :=
  if i ≤ j ∧ j ≤ bs.length then .ok ((bs.drop i).take (j - i)) else .error .panic

/-- Conversion of a slice to an array of known length, unwrapped. -/
def toArray (n : ℕ) (bs : Bytes) : Checked E (Vector UInt8 n) :=
  if h : bs.length = n then .ok ⟨bs.toArray, h⟩ else .error .panic

@[simp] theorem ok_bind (a : α) (f : α → Except ε β) : (.ok a >>= f) = f a := rfl

theorem byteAt_eq_ok : byteAt bs i = (.ok b : Checked E UInt8) ↔ bs[i]? = some b := by
  rw [byteAt]
  split <;> simp_all

theorem slice_eq_ok : slice bs i j = (.ok mid : Checked E Bytes) ↔
    i ≤ j ∧ j ≤ bs.length ∧ mid = (bs.drop i).take (j - i) := by
  rw [slice]
  split
  next h => simp [h, eq_comm]
  next h => simpa using fun hi hj => absurd ⟨hi, hj⟩ h

theorem toArray_eq_ok {v : Vector UInt8 n} :
    toArray n bs = (.ok v : Checked E (Vector UInt8 n)) ↔ bs = v.toList := by
  rw [toArray]
  split
  next h =>
    rw [Except.ok.injEq]
    constructor
    · rintro rfl
      rfl
    · rintro rfl
      rfl
  next h =>
    constructor
    · nofun
    · rintro rfl
      exact absurd v.length_toList h

theorem length_of_slice (h : slice bs i j = (.ok mid : Checked E Bytes)) :
    mid.length = j - i := by
  obtain ⟨-, hj, rfl⟩ := slice_eq_ok.1 h
  rw [List.length_take, List.length_drop]
  omega

theorem toArray_of_length {bs : Bytes} (h : bs.length = n) :
    ∃ v : Vector UInt8 n, v.toList = bs ∧ toArray n bs = (.ok v : Checked E _) :=
  ⟨⟨bs.toArray, h⟩, rfl, dif_pos h⟩

theorem bind_eq_ok {x : Except ε α} {f : α → Except ε β} :
    (x >>= f) = .ok b ↔ ∃ a, x = .ok a ∧ f a = .ok b := by
  cases x with
  | error e => simp [bind, Except.bind]
  | ok a => simp

theorem slice_append_append (pre mid post : Bytes) (hi : i = pre.length)
    (hj : j = pre.length + mid.length) :
    slice (pre ++ (mid ++ post)) i j = (.ok mid : Checked E Bytes) := by
  have hle : i ≤ j ∧ j ≤ (pre ++ (mid ++ post)).length := by
    simp only [List.length_append]
    omega
  rw [slice, if_pos hle, hi, List.drop_left, hj, Nat.add_sub_cancel_left, List.take_left]

/-- A computation that reaches no panic, whatever else it answers. -/
def Safe (x : Checked E α) : Prop := x ≠ .error .panic

theorem Safe.ok {a : α} : Safe (.ok a : Checked E α) := nofun

theorem Safe.error {e : E} : Safe (.error (.error e) : Checked E α) := nofun

theorem Safe.bind {x : Checked E α} {f : α → Checked E β} (hx : Safe x)
    (hf : ∀ a, x = .ok a → Safe (f a)) : Safe (x >>= f) := by
  cases x with
  | error e =>
    intro h
    cases h
    exact hx rfl
  | ok a => exact hf a rfl

theorem Safe.map {x : Checked E α} (f : α → β) (hx : Safe x) : Safe (x.map f) := by
  cases x with
  | error e =>
    intro h
    cases h
    exact hx rfl
  | ok a => exact Safe.ok

theorem Safe.slice (h : i ≤ j ∧ j ≤ bs.length) :
    Safe (TacticalMesh.slice bs i j : Checked E Bytes) := by
  rw [TacticalMesh.slice, if_pos h]
  exact Safe.ok

theorem Safe.toArray {bs : Bytes} (h : bs.length = n) :
    Safe (TacticalMesh.toArray n bs : Checked E (Vector UInt8 n)) := by
  rw [TacticalMesh.toArray, dif_pos h]
  exact Safe.ok

def ErrsIn (P : E → Prop) (x : Checked E α) : Prop := ∀ e, x = .error (.error e) → P e

theorem ErrsIn.ok {P : E → Prop} {a : α} : ErrsIn P (.ok a : Checked E α) := nofun

theorem ErrsIn.error {P : E → Prop} (h : P e) : ErrsIn P (.error (.error e) : Checked E α) := by
  intro e' he
  cases he
  exact h

theorem ErrsIn.bind {P : E → Prop} {x : Checked E α} {f : α → Checked E β} (hx : ErrsIn P x)
    (hf : ∀ a, ErrsIn P (f a)) : ErrsIn P (x >>= f) := by
  cases x with
  | error fault =>
    intro e he
    cases he
    exact hx e rfl
  | ok a => exact hf a

theorem ErrsIn.slice {P : E → Prop} : ErrsIn P (TacticalMesh.slice bs i j : Checked E Bytes) := by
  rw [TacticalMesh.slice]
  split <;> nofun

theorem ErrsIn.toArray {P : E → Prop} {bs : Bytes} :
    ErrsIn P (TacticalMesh.toArray n bs : Checked E (Vector UInt8 n)) := by
  rw [TacticalMesh.toArray]
  split <;> nofun

def setAt (buf : Bytes) (i : ℕ) (b : UInt8) : Checked E Bytes :=
  if i < buf.length then .ok (buf.set i b) else .error .panic

def copyAt (buf : Bytes) (i j : ℕ) (bs : Bytes) : Checked E Bytes :=
  if i ≤ j ∧ j ≤ buf.length ∧ j - i = bs.length then .ok (buf.take i ++ (bs ++ buf.drop j))
  else .error .panic

theorem setAt_blank {done : Bytes} {m : ℕ} (hi : i = done.length) (hm : 0 < m) :
    setAt (done ++ List.replicate m 0) i b =
      (.ok (done ++ [b] ++ List.replicate (m - 1) 0) : Checked E Bytes) := by
  obtain ⟨n, rfl⟩ := Nat.exists_eq_succ_of_ne_zero hm.ne'
  have hlt : i < (done ++ List.replicate (n + 1) (0 : UInt8)).length := by
    rw [List.length_append, List.length_replicate]
    omega
  rw [setAt, if_pos hlt, List.set_append_right i b hi.ge, hi, Nat.sub_self, List.replicate_succ,
    List.set_cons_zero, List.append_assoc, List.singleton_append, Nat.succ_sub_one]

theorem copyAt_blank {done : Bytes} {m : ℕ} (hi : i = done.length) (hj : j = i + bs.length)
    (hm : bs.length ≤ m) :
    copyAt (done ++ List.replicate m 0) i j bs =
      (.ok (done ++ bs ++ List.replicate (m - bs.length) 0) : Checked E Bytes) := by
  have hfits : i ≤ j ∧ j ≤ (done ++ List.replicate m (0 : UInt8)).length ∧
      j - i = bs.length := by
    rw [List.length_append, List.length_replicate]
    omega
  have hrest : (done ++ List.replicate m (0 : UInt8)).drop j =
      List.replicate (m - bs.length) 0 := by
    rw [hj, hi, List.drop_append, List.drop_eq_nil_of_le (by omega), List.drop_replicate,
      Nat.add_sub_cancel_left, List.nil_append]
  rw [copyAt, if_pos hfits, hrest, hi, List.take_left, List.append_assoc]

@[simp] theorem toArray_toList (v : Vector UInt8 n) :
    toArray n v.toList = (.ok v : Checked E (Vector UInt8 n)) := by
  rw [toArray_eq_ok]

end TacticalMesh
