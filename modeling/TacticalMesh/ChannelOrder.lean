import Mathlib.Data.List.Induction
import TacticalMesh.Node

namespace TacticalMesh
set_option autoImplicit true

inductive ChannelMsg where
  | jamAlert (ja : JamAlert)
  | channelHop (ch : ChannelHop)
  deriving DecidableEq, Repr

def ChannelMsg.hopTarget : ChannelMsg → UInt8
  | jamAlert ja => Shared.fallbackChannel ja.channel
  | channelHop ch => ch.newChannel

namespace Shared
variable {crypto : Crypto}

/-- One message handled; the radio can always be tuned. -/
def hear (s : Shared crypto) : ChannelMsg → Shared crypto
  | .jamAlert ja => s.handleJamAlert ja true
  | .channelHop ch => s.handleChannelHop ch true

def hearAll (s : Shared crypto) (msgs : List ChannelMsg) : Shared crypto := msgs.foldl hear s

theorem hear_channel (s : Shared crypto) (m : ChannelMsg) :
    (s.hear m).app.channel = m.hopTarget ∧ (s.hear m).link.channel = m.hopTarget := by
  cases m <;> exact ⟨rfl, rfl⟩

theorem hearAll_concat (s : Shared crypto) (msgs : List ChannelMsg) (m : ChannelMsg) :
    (s.hearAll (msgs ++ [m])).app.channel = m.hopTarget := by
  rw [hearAll, List.foldl_append]
  exact (hear_channel _ m).1

/-- Two nodes that start on one channel and handle the same messages end on one channel in
every order, exactly when all the messages send them to one channel. -/
theorem channels_agree_iff (msgs : List ChannelMsg) (s s' : Shared crypto)
    (hstart : s.app.channel = s'.app.channel) :
    (∀ received received' : List ChannelMsg, received.Perm msgs → received'.Perm msgs →
        (s.hearAll received).app.channel = (s'.hearAll received').app.channel) ↔
      ∀ m ∈ msgs, ∀ m' ∈ msgs, m.hopTarget = m'.hopTarget := by
  constructor
  · intro h m hm m' hm'
    have hlast : ∀ x ∈ msgs, (msgs.erase x ++ [x]).Perm msgs := by
      intro x hx
      exact (List.perm_append_singleton x (msgs.erase x)).trans (List.perm_cons_erase hx).symm
    have heq := h _ _ (hlast m hm) (hlast m' hm')
    rwa [hearAll_concat, hearAll_concat] at heq
  · intro h received received' hperm hperm'
    rcases List.eq_nil_or_concat received with rfl | ⟨l, m, rfl⟩
    · rw [hperm.symm.eq_nil] at hperm'
      rw [hperm'.eq_nil]
      exact hstart
    · rcases List.eq_nil_or_concat received' with rfl | ⟨l', m', rfl⟩
      · rw [hperm'.symm.eq_nil] at hperm
        exact absurd hperm.eq_nil (by simp)
      · rw [List.concat_eq_append, List.concat_eq_append, hearAll_concat, hearAll_concat]
        exact h m (hperm.mem_iff.1 (by simp)) m' (hperm'.mem_iff.1 (by simp))

def toyNode (nodeId : UInt8) : Shared .toy :=
  .new (Crypto.toyFleet.identity nodeId) Crypto.toyFleet.pubkeys 0

def crossedAlerts : List ChannelMsg := [.jamAlert ⟨1, 36, 1000⟩, .jamAlert ⟨2, 0, 1000⟩]

theorem crossedAlerts_agree_iff :
    (toyNode 3).app.channel = (toyNode 4).app.channel ∧
      ((∀ received received' : List ChannelMsg, received.Perm crossedAlerts →
          received'.Perm crossedAlerts →
          ((toyNode 3).hearAll received).app.channel =
            ((toyNode 4).hearAll received').app.channel) ↔
        ∀ m ∈ crossedAlerts, ∀ m' ∈ crossedAlerts, m.hopTarget = m'.hopTarget) :=
  ⟨rfl, channels_agree_iff crossedAlerts (toyNode 3) (toyNode 4) rfl⟩

theorem alert_order_splits :
    crossedAlerts.reverse.Perm crossedAlerts ∧
      (toyNode 3).app.channel = (toyNode 4).app.channel ∧
      ((toyNode 3).hearAll crossedAlerts).app.channel = 36 ∧
      ((toyNode 4).hearAll crossedAlerts.reverse).app.channel = 40 :=
  ⟨List.reverse_perm _, rfl, rfl, rfl⟩

end Shared
end TacticalMesh
