import Alto.Verify.SelectionReturns

/-!
# The locks of a selection

A selection takes a shared lock on `m_views_mutex` and one on the distribution, and gives both back at its
end. It returns before that for an external home PID, and `fillPeers` can throw.
-/

namespace Alto.Selection

open Common Lib App Guidance

variable {randMax : Nat} {Peer ISP Mgr : Type} [LinearOrder Peer] [LinearOrder ISP]

/-! ## Locks -/

/-- As many locks are held as before. -/
structure SameLocks (s t : Selecting Peer) : Prop where
  peersLocks : t.peersLocks = s.peersLocks
  viewsLocks : t.viewsLocks = s.viewsLocks

instance (s t : Selecting Peer) : Decidable (SameLocks s t) :=
  decidable_of_iff (t.peersLocks = s.peersLocks ∧ t.viewsLocks = s.viewsLocks)
    ⟨fun h => ⟨h.1, h.2⟩, fun h => ⟨h.1, h.2⟩⟩

theorem SameLocks.refl (s : Selecting Peer) : SameLocks s s := ⟨rfl, rfl⟩

namespace Selector.Plan

variable {plan : Plan Peer} {s t : Selecting Peer}

/-- Behind the first stage both locks are held. -/
theorem Appended.locks {js : List Nat} {intra ext : List Peer} {quotas : List (ℚ × Nat)}
    (h : plan.Appended s t js intra ext quotas) : SameLocks s.entered t := by
  obtain ⟨⟨first, hc⟩, -⟩ := h
  obtain ⟨k, hdrew⟩ := hc.drew
  exact ⟨hdrew.peersLocks, hdrew.viewsLocks⟩

theorem Threw.locks (h : plan.Threw s t) : SameLocks s.entered t := by
  rcases h with ⟨⟨intra, happended, -⟩, -⟩ | ⟨⟨intra, ext, happended, -⟩, -⟩
  · exact happended.locks
  · exact happended.locks

/-- The locks that are held in the last stage are given back. -/
theorem InRandom.locks (h : plan.InRandom s t) : SameLocks s t.released := by
  obtain ⟨u, out, ⟨intra, ext, happended, -⟩, hdrew, -⟩ := h
  have hlocks := happended.locks
  constructor
  · change t.peersLocks - 1 = s.peersLocks
    have hpeers : t.peersLocks = s.peersLocks + 1 := hdrew.peersLocks.trans hlocks.peersLocks
    omega
  · change t.viewsLocks - 1 = s.viewsLocks
    have hviews : t.viewsLocks = s.viewsLocks + 1 := hdrew.viewsLocks.trans hlocks.viewsLocks
    omega

end Selector.Plan

/-! ## The two functions -/

namespace SelectionContext

open Selector

variable {ctx : SelectionContext Peer ISP Mgr} {peer : Peer} {homeIsp : ISP} {homePid : Int}
  {numPeers : Nat} {s : Selecting Peer}

end SelectionContext

end Alto.Selection
