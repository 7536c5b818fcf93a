import Mathlib.Data.Fintype.Card
import Mathlib.Data.Fintype.EquivFin
import Mathlib.Tactic.Ring

namespace TacticalMesh
set_option autoImplicit true

theorem uint8_ofFin_bijective : Function.Bijective UInt8.ofFin := by
  constructor
  · intro a b h
    exact congrArg UInt8.toFin h
  · intro a
    exact ⟨a.toFin, rfl⟩

instance fintypeUInt8 : Fintype UInt8 := Fintype.ofBijective UInt8.ofFin uint8_ofFin_bijective

theorem card_uint8 : Fintype.card UInt8 = 256 :=
  (Fintype.card_of_bijective uint8_ofFin_bijective).symm.trans (Fintype.card_fin 256)

def u32Max : ℕ := 2 ^ 32 - 1

def neighborTimeoutMs : ℕ := 3000

/-- The hop cap of the routing crate; the wire crate has its own, smaller one. -/
def Olsr.maxHops : ℕ := 8

structure LinkQuality where
  rssiDbm : Int8
  lossRateX100 : UInt8
  mcs : UInt8
  deriving DecidableEq, Repr

structure Hello where
  sender : UInt8
  neighbors : List (UInt8 × LinkQuality)
  sentAtMs : ℕ
  deriving DecidableEq, Repr

structure Tc where
  sender : UInt8
  seq : UInt16
  advertisedNeighbors : List (UInt8 × LinkQuality)
  sentAtMs : ℕ
  deriving DecidableEq, Repr

inductive OlsrMessage where
  | hello (hello : Hello)
  | tc (tc : Tc)
  deriving DecidableEq, Repr

structure RouteEntry where
  destination : UInt8
  nextHop : UInt8
  cost : ℕ
  hopCount : ℕ
  deriving DecidableEq, Repr

structure NeighborEntry where
  nodeId : UInt8
  linkQuality : LinkQuality
  lastHelloMs : ℕ
  lastSeenNeighbors : List UInt8
  deriving DecidableEq, Repr

def linkCost (q : LinkQuality) : ℕ :=
  let base := match q.mcs with
    | 0 => 100
    | 1 => 90
    | 2 => 80
    | 3 => 70
    | 4 => 60
    | _ => 50
  let lossPenalty := q.lossRateX100.toNat * 10
  -- the negation is one of 8-bit integers: in the release profile it sends -128 to itself
  let rssiPenalty := (max ((-q.rssiDbm).toInt - 30) 0).toNat * 2
  base + lossPenalty + rssiPenalty

theorem linkCost_le (q : LinkQuality) : linkCost q ≤ 2844 := by
  have hloss := q.lossRateX100.toNat_lt
  have hrssi := (-q.rssiDbm).toInt_lt
  have hbase : ∀ m : UInt8, (match m with
      | 0 => 100 | 1 => 90 | 2 => 80 | 3 => 70 | 4 => 60 | _ => 50 : ℕ) ≤ 100 := by
    intro m
    split <;> omega
  have hb := hbase q.mcs
  simp only [linkCost]
  omega

theorem linkCost_pos (q : LinkQuality) : 0 < linkCost q := by
  simp only [linkCost]
  split <;> omega

example : linkCost ⟨-50, 5, 4⟩ = 60 + 40 + 50 := by decide

end TacticalMesh
