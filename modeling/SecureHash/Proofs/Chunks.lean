import SecureHash.Proofs.Closing

/-!
Chunks do not matter: what a hasher shows, and all that comes of closing it, depends on
the octets it was given and not on the calls that gave them.

The hashers themselves may differ, in the part of the buffer beyond the fill level: a
chunk that went through the buffer stays there, and one that was compressed straight from
the data never was there.  So hashers are compared by their views, and as a whole only
from the padding on.
-/

namespace SecureHash
namespace Hasher
open Session (View)

/-- Padding or closing `a` and `b` comes out alike, whatever the strategies are and
whatever the destinations hold. -/
structure ClosesAlike (a b : Hasher) : Prop where
  pad : ∀ one other : Strategy, ∃ blocks padded,
    (pad one).run a = .ok blocks padded ∧ (pad other).run b = .ok blocks padded
  finalizeInto : ∀ (one other : Strategy) (out old : Vector UInt8 32), ∃ octets,
    (finalizeInto one out).run a = .ok octets initial ∧
      (finalizeInto other old).run b = .ok octets initial
  finalize : ∀ one other : Strategy, ∃ d,
    (finalize one).run a = .ok d initial ∧ (finalize other).run b = .ok d initial

theorem closesAlike_of_view {a b : Hasher} (same : View.of a = View.of b) : ClosesAlike a b where
  pad one other := ⟨_, _, run_pad one a, by rw [run_pad, same]⟩
  finalizeInto one other out old :=
    ⟨_, run_finalizeInto one out a, by rw [run_finalizeInto, same]⟩
  finalize one other := ⟨_, run_finalize one a, by rw [run_finalize, same]⟩

theorem flatten_singletons (data : List UInt8) :
    (data.map fun octet => [octet]).flatten = data := by
  rw [← List.flatMap_def, List.flatMap_singleton']

/-- Two ways to cut the same octets, one call with all of them, and one call for each
octet end in the same view, from any hasher, and close alike. -/
theorem updateFrom_eq_update (h : Hasher) (plan other : Plan) (choice : Strategy) (i j : Nat)
    (first second : List (List UInt8)) (same : first.flatten = second.flatten) :
    ∃ a b whole single : Hasher,
      (updateFrom plan i first).run h = .ok () a ∧
      (updateFrom other j second).run h = .ok () b ∧
      (update choice first.flatten).run h = .ok () whole ∧
      (updateFrom plan i (first.flatten.map fun octet => [octet])).run h = .ok () single ∧
      View.of a = View.of whole ∧ View.of b = View.of whole ∧ View.of single = View.of whole ∧
      ClosesAlike a whole ∧ ClosesAlike b whole ∧ ClosesAlike single whole ∧ ClosesAlike a b := by
  obtain ⟨a, hrun, ha⟩ := run_updateFrom plan i first h
  obtain ⟨b, hother, hb⟩ := run_updateFrom other j second h
  obtain ⟨whole, hupdate, hwhole⟩ := run_update choice first.flatten h
  obtain ⟨single, hsingles, hsingle⟩ :=
    run_updateFrom plan i (first.flatten.map fun octet => [octet]) h
  rw [flatten_singletons] at hsingle
  rw [← same] at hb
  have haw : View.of a = View.of whole := ha.trans hwhole.symm
  have hbw : View.of b = View.of whole := hb.trans hwhole.symm
  have hsw : View.of single = View.of whole := hsingle.trans hwhole.symm
  exact ⟨a, b, whole, single, hrun, hother, hupdate, hsingles, haw, hbw, hsw,
    closesAlike_of_view haw, closesAlike_of_view hbw, closesAlike_of_view hsw,
    closesAlike_of_view (haw.trans hbw.symm)⟩

/-- Two octets short of a block and of the end of the count, with an empty chunk among
the chunks. -/
theorem updateFrom_eq_update_at_wrap :
    let h : Hasher :=
      { state := ChainState.zero, bitCount := 18446744073709551600
        buffer := Vector.replicate 64 7 }
    let plan := Plan.uniform .rolled
    h.pendingLength = 62 ∧
      [[1], [], [2, 3, 4]].flatten = ([[1, 2, 3], [4]] : List (List UInt8)).flatten ∧
      ∃ a b : Hasher, (updateFrom plan 0 [[1], [], [2, 3, 4]]).run h = .ok () a ∧
        (updateFrom plan 0 [[1, 2, 3], [4]]).run h = .ok () b ∧ View.of a = View.of b ∧
        ClosesAlike a b := by
  intro h plan
  obtain ⟨a, b, whole, single, hrun, hother, -, -, haw, hbw, -, -, -, -, hab⟩ :=
    updateFrom_eq_update h plan plan (Strategy.uniform .rolled) 0 0 [[1], [], [2, 3, 4]]
      [[1, 2, 3], [4]] rfl
  exact ⟨by decide, rfl, a, b, hrun, hother, haw.trans hbw.symm, hab⟩

end Hasher
end SecureHash
