import TacticalMesh.Crypto
import Mathlib.Logic.Function.Basic

namespace TacticalMesh
set_option autoImplicit true

def Priority.label : Priority → Bytes
  | emergency => "emergency".toUTF8.toList
  | critical => "critical".toUTF8.toList
  | high => "high".toUTF8.toList
  | bulk => "bulk".toUTF8.toList

/-- The first four bytes of a hash of the key, the epoch and the name of the priority. -/
def Crypto.deriveStreamId (crypto : Crypto) (sessionKey : SessionKey) (epoch : UInt32)
    (prio : Priority) : UInt32 :=
  let hash := crypto.blake3 (sessionKey.toList ++ leBytes 4 epoch.toNat ++ prio.label)
  .ofNat (leValue (hash.toList.take 4))

/-- A reader thread: its stream, and whether its stop flag is set or about to be. -/
structure Reader where
  streamId : UInt32
  stopping : Bool
  deriving DecidableEq, Repr

/-- What an epoch rotation works on: for each priority the stream of the TX handle, and the reader
threads, the newest first. The stop flag that the adapter keeps is that of the newest. -/
structure LinkAdapter where
  sessionKey : SessionKey
  epoch : UInt32
  tx : Priority → UInt32
  readers : Priority → List Reader

/-- Which of the eight constructors succeed in one call. -/
structure Constructors where
  tx : Priority → Bool
  rx : Priority → Bool

def Constructors.Succeed (c : Constructors) : Prop := ∀ prio, c.tx prio ∧ c.rx prio

inductive RotateResult where
  | ok
  | err
  | panics
  deriving DecidableEq, Repr

namespace LinkAdapter

def priorities : List Priority := [.emergency, .critical, .high, .bulk]

def new (crypto : Crypto) (sessionKey : SessionKey) : LinkAdapter where
  sessionKey := sessionKey
  epoch := 0
  tx prio := crypto.deriveStreamId sessionKey 0 prio
  readers prio := [⟨crypto.deriveStreamId sessionKey 0 prio, false⟩]

def setTx (a : LinkAdapter) (prio : Priority) (sid : UInt32) : LinkAdapter :=
  { a with tx := Function.update a.tx prio sid }

def stopReader (a : LinkAdapter) (prio : Priority) : LinkAdapter :=
  { a with
    readers := Function.update a.readers prio
      ((a.readers prio).modifyHead fun r => { r with stopping := true }) }

def spawnReader (a : LinkAdapter) (prio : Priority) (sid : UInt32) : LinkAdapter :=
  { a with readers := Function.update a.readers prio (⟨sid, false⟩ :: a.readers prio) }

/-- The loop over the priorities. It ends with the first constructor that fails. -/
def rotateAll (crypto : Crypto) (newEpoch : UInt32) (c : Constructors) :
    List Priority → LinkAdapter → LinkAdapter × RotateResult
  | [], a => (a, .ok)
  | prio :: rest, a =>
    let newSid := crypto.deriveStreamId a.sessionKey newEpoch prio
    if c.tx prio then
      let a := (a.setTx prio newSid).stopReader prio
      if c.rx prio then rotateAll crypto newEpoch c rest (a.spawnReader prio newSid)
      else (a, .err)
    else (a, .err)

/-- The counter wraps when it is fetched and increased; the addition that follows panics then where
overflows are checked. -/
def rotateEpoch (crypto : Crypto) (overflowChecks : Bool) (a : LinkAdapter) (c : Constructors) :
    LinkAdapter × RotateResult :=
  let bumped := { a with epoch := a.epoch + 1 }
  if overflowChecks ∧ a.epoch.toNat + 1 = UInt32.size then (bumped, .panics)
  else rotateAll crypto (a.epoch + 1) c priorities bumped

def rotations (crypto : Crypto) (overflowChecks : Bool) (a : LinkAdapter)
    (calls : List Constructors) : LinkAdapter :=
  calls.foldl (fun a c => (a.rotateEpoch crypto overflowChecks c).1) a

/-- Each priority has its TX handle and a reader that goes on, both with the stream of the current
epoch. -/
def Consistent (crypto : Crypto) (a : LinkAdapter) : Prop :=
  ∀ prio, a.tx prio = crypto.deriveStreamId a.sessionKey a.epoch prio ∧
    ⟨crypto.deriveStreamId a.sessionKey a.epoch prio, false⟩ ∈ a.readers prio

/-- Every call that returns leaves the adapter consistent, and if it fails, as it was. -/
def AllOrNothing (crypto : Crypto) (overflowChecks : Bool) (a : LinkAdapter)
    (calls : List Constructors) : Prop :=
  ∀ pre c, pre ++ [c] <+: calls →
    let before := a.rotations crypto overflowChecks pre
    let (after, result) := before.rotateEpoch crypto overflowChecks c
    result ≠ .panics → after.Consistent crypto ∧ (result = .err → after = before)

variable {crypto : Crypto} {a : LinkAdapter} {c : Constructors}

theorem rotateAll_keeps (crypto : Crypto) (newEpoch : UInt32) (c : Constructors)
    (prios : List Priority) (a : LinkAdapter) :
    (rotateAll crypto newEpoch c prios a).1.sessionKey = a.sessionKey ∧
      (rotateAll crypto newEpoch c prios a).1.epoch = a.epoch := by
  induction prios generalizing a with
  | nil => exact ⟨rfl, rfl⟩
  | cons prio rest ih =>
    rw [rotateAll]
    split
    next =>
      split
      next => exact ih _
      next => exact ⟨rfl, rfl⟩
    next => exact ⟨rfl, rfl⟩

def replaced (a : LinkAdapter) (prio : Priority) (sid : UInt32) : LinkAdapter :=
  ((a.setTx prio sid).stopReader prio).spawnReader prio sid

theorem replaced_tx (a : LinkAdapter) (prio prio' : Priority) (sid : UInt32) :
    (a.replaced prio sid).tx prio' = if prio' = prio then sid else a.tx prio' :=
  Function.update_apply ..

theorem mem_replaced (a : LinkAdapter) (prio : Priority) (sid : UInt32) :
    ⟨sid, false⟩ ∈ (a.replaced prio sid).readers prio := by
  simp only [replaced, spawnReader, Function.update_self]
  exact List.mem_cons_self ..

theorem replaced_readers_of_ne (a : LinkAdapter) (sid : UInt32) (h : prio' ≠ prio) :
    (a.replaced prio sid).readers prio' = a.readers prio' := by
  simp only [replaced, spawnReader, stopReader, setTx, Function.update_of_ne h]

theorem rotateAll_replaces (crypto : Crypto) (newEpoch : UInt32) (hc : c.Succeed)
    (prios : List Priority) (a : LinkAdapter) (prio : Priority) :
    (rotateAll crypto newEpoch c prios a).2 = .ok ∧
      (rotateAll crypto newEpoch c prios a).1.tx prio =
        (if prio ∈ prios then crypto.deriveStreamId a.sessionKey newEpoch prio else a.tx prio) ∧
      if prio ∈ prios then
        ⟨crypto.deriveStreamId a.sessionKey newEpoch prio, false⟩ ∈
          (rotateAll crypto newEpoch c prios a).1.readers prio
      else (rotateAll crypto newEpoch c prios a).1.readers prio = a.readers prio := by
  induction prios generalizing a with
  | nil => simp [rotateAll]
  | cons p rest ih =>
    have hstep : rotateAll crypto newEpoch c (p :: rest) a =
        rotateAll crypto newEpoch c rest
          (a.replaced p (crypto.deriveStreamId a.sessionKey newEpoch p)) := by
      rw [rotateAll, if_pos (hc p).1, if_pos (hc p).2]
      rfl
    have hkey : ∀ sid, (a.replaced p sid).sessionKey = a.sessionKey := fun _ => rfl
    obtain ⟨hok, htx, hreaders⟩ :=
      ih (a.replaced p (crypto.deriveStreamId a.sessionKey newEpoch p))
    rw [hkey] at htx hreaders
    rw [hstep]
    refine ⟨hok, ?_, ?_⟩
    · rw [htx, replaced_tx]
      by_cases hp : prio = p
      · simp [hp]
      · simp [hp]
    · by_cases hrest : prio ∈ rest
      · rw [if_pos hrest] at hreaders
        rw [if_pos (List.mem_cons_of_mem _ hrest)]
        exact hreaders
      · rw [if_neg hrest] at hreaders
        rw [hreaders]
        by_cases hp : prio = p
        · subst hp
          rw [if_pos (List.mem_cons_self ..)]
          exact mem_replaced ..
        · rw [if_neg (by simp [hp, hrest]), replaced_readers_of_ne _ _ hp]

theorem rotateAll_fails (prios : List Priority) (hprio : prio ∈ prios)
    (hfails : ¬ (c.tx prio ∧ c.rx prio)) : (rotateAll crypto newEpoch c prios a).2 = .err := by
  induction prios generalizing a with
  | nil => cases hprio
  | cons p rest ih =>
    rw [rotateAll]
    split
    next htx =>
      split
      next hrx =>
        apply ih
        rcases List.mem_cons.1 hprio with rfl | hprio
        · exact absurd ⟨htx, hrx⟩ hfails
        · exact hprio
      next => rfl
    next => rfl

theorem rotateAll_ne_panics (prios : List Priority) :
    (rotateAll crypto newEpoch c prios a).2 ≠ .panics := by
  induction prios generalizing a with
  | nil => exact RotateResult.noConfusion
  | cons p rest ih =>
    rw [rotateAll]
    split
    next =>
      split
      next => exact ih
      next => exact RotateResult.noConfusion
    next => exact RotateResult.noConfusion

theorem mem_priorities (prio : Priority) : prio ∈ priorities := by
  cases prio <;> simp [priorities]

def Overflows (overflowChecks : Bool) (a : LinkAdapter) : Prop :=
  overflowChecks ∧ a.epoch.toNat + 1 = UInt32.size

theorem rotateEpoch_panics_iff :
    (a.rotateEpoch crypto overflowChecks c).2 = .panics ↔ a.Overflows overflowChecks := by
  rw [rotateEpoch]
  split
  next h => exact iff_of_true rfl h
  next h => exact iff_of_false (rotateAll_ne_panics _) h

theorem rotateEpoch_iff (h : ¬ a.Overflows overflowChecks) :
    ((a.rotateEpoch crypto overflowChecks c).1.Consistent crypto ∧
      ((a.rotateEpoch crypto overflowChecks c).2 = .err →
        (a.rotateEpoch crypto overflowChecks c).1 = a)) ↔ c.Succeed := by
  have hcall : a.rotateEpoch crypto overflowChecks c =
      rotateAll crypto (a.epoch + 1) c priorities { a with epoch := a.epoch + 1 } := if_neg h
  rw [hcall]
  obtain ⟨hkey, hepoch⟩ :=
    rotateAll_keeps crypto (a.epoch + 1) c priorities { a with epoch := a.epoch + 1 }
  constructor
  · rintro ⟨-, hsame⟩ prio
    by_contra hfails
    have hbumped := congrArg LinkAdapter.epoch
      (hsame (rotateAll_fails priorities (mem_priorities prio) hfails))
    rw [hepoch] at hbumped
    exact absurd hbumped (by simp)
  · intro hc
    constructor
    · intro prio
      obtain ⟨-, htx, hreader⟩ := rotateAll_replaces crypto (a.epoch + 1) hc priorities
        { a with epoch := a.epoch + 1 } prio
      rw [if_pos (mem_priorities prio)] at htx hreader
      rw [hkey, hepoch]
      exact ⟨htx, hreader⟩
    · intro herr
      rw [(rotateAll_replaces crypto _ hc priorities _ .bulk).1] at herr
      cases herr

theorem AllOrNothing.unchanged (h : a.AllOrNothing crypto overflowChecks calls)
    (pre : List Constructors) (hpre : pre ++ [c] <+: calls)
    (herr : ((a.rotations crypto overflowChecks pre).rotateEpoch crypto overflowChecks c).2 =
      .err) :
    ((a.rotations crypto overflowChecks pre).rotateEpoch crypto overflowChecks c).1 =
      a.rotations crypto overflowChecks pre := by
  have hreturns : ((a.rotations crypto overflowChecks pre).rotateEpoch crypto overflowChecks
      c).2 ≠ .panics := by
    rw [herr]
    exact RotateResult.noConfusion
  exact (h pre c hpre hreturns).2 herr

/-- Rotations are all or nothing exactly if no constructor fails in a call that returns. -/
theorem allOrNothing_iff (crypto : Crypto) (overflowChecks : Bool) (a : LinkAdapter)
    (calls : List Constructors) :
    a.AllOrNothing crypto overflowChecks calls ↔
      ∀ pre c, pre ++ [c] <+: calls →
        (a.rotations crypto overflowChecks pre).Overflows overflowChecks ∨ c.Succeed := by
  rw [AllOrNothing]
  apply forall_congr'
  intro pre
  apply forall_congr'
  intro c
  apply imp_congr_right
  intro _
  simp only [ne_eq, rotateEpoch_panics_iff]
  by_cases h : (a.rotations crypto overflowChecks pre).Overflows overflowChecks
  · simp [h]
  · rw [or_iff_right h, ← rotateEpoch_iff h]
    exact forall_prop_of_true h

def bulkReaderFails : Constructors where
  tx _ := true
  rx prio := prio != .bulk

def toyAdapter : LinkAdapter := new .toy (Vector.replicate 32 7)

/-- The epoch has moved on, and the only reader of the bulk priority is about to stop. -/
theorem failed_rotation_halfway :
    ¬ toyAdapter.AllOrNothing .toy true [bulkReaderFails] ∧
      (toyAdapter.rotateEpoch .toy true bulkReaderFails).2 = .err ∧
      (toyAdapter.rotateEpoch .toy true bulkReaderFails).1.epoch = 1 ∧
      ∀ r ∈ (toyAdapter.rotateEpoch .toy true bulkReaderFails).1.readers .bulk, r.stopping := by
  have herr : (toyAdapter.rotateEpoch .toy true bulkReaderFails).2 = .err := by rfl
  have hepoch : (toyAdapter.rotateEpoch .toy true bulkReaderFails).1.epoch = 1 := by rfl
  have hreaders : ((toyAdapter.rotateEpoch .toy true bulkReaderFails).1.readers .bulk).map
      Reader.stopping = [true] := by rfl
  refine ⟨?_, herr, hepoch, ?_⟩
  · intro h
    have hsame := congrArg LinkAdapter.epoch (h.unchanged [] (List.prefix_refl _) herr)
    exact absurd (hepoch.symm.trans hsame) (by decide)
  · intro r hr
    have hmem := List.mem_map_of_mem (f := Reader.stopping) hr
    rw [hreaders, List.mem_singleton] at hmem
    exact hmem

end LinkAdapter
end TacticalMesh
