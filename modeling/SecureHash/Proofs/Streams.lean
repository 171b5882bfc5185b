import SecureHash.Chunking.Stream
import SecureHash.Proofs.Compositions
import SecureHash.Proofs.Message
import SecureHash.Proofs.Splits
import SecureHash.Proofs.Strides

/-!
Streams in chunks all end alike.

Compositions and strides are sizes that sum to the length, which is all that a cut asks for.
Whatever the sizes are, a hasher fed with the chunks ends in the view of the data
(`drives_of_sum`), and so a survey meets one summary only.
-/

namespace SecureHash
open Session (View)

/-- What the end of a stream shows of a hasher with this view. -/
def Summary.ofView (v : View) : Summary := { bitCount := v.bitCount, digest := v.digest }

namespace Hasher

theorem updateFrom_uniform (choice : Strategy) (i : Nat) (chunks : List (List UInt8)) :
    updateFrom (fun _ => choice) i chunks = chunks.forM (update choice) := by
  induction chunks generalizing i with
  | nil => rfl
  | cons chunk rest ih =>
    rw [updateFrom_cons, ih]
    rfl

theorem run_summarize (choice : Strategy) (h : Hasher) :
    (summarize choice).run h = .ok (Summary.ofView (View.of h)) initial := by
  rw [summarize, run_get_bind, run_bind_of_ok (run_finalize choice h)]
  rfl

end Hasher

namespace Chunking

/-- Cut by `sizes`, `data` drives a new hasher to the end that `summary` holds: fed by the
visitor of the cut, with any strategies, and in a stream. -/
structure Drives (plan : Plan) (data : List UInt8) (sizes : List Nat) (summary : Summary) :
    Prop where
  cuts : ∃ chunks, Cuts data sizes chunks
  feeds : ∀ choice last, ∃ after : Hasher,
    (forEachChunk data sizes (Hasher.update choice)).run Hasher.initial = .ok () after ∧
    after.bitCount = summary.bitCount ∧
    (Hasher.finalize last).run after = .ok summary.digest Hasher.initial
  stream : Chunking.stream plan data sizes = .ok summary

theorem drives_of_sum (plan : Plan) {data : List UInt8} {sizes : List Nat}
    (hsum : sizes.sum = data.length) (hdata : data.length < UInt64.size) :
    Drives plan data sizes (Summary.ofView (View.ofMessage data)) := by
  have hcuts := cuts_of_sum hsum hdata
  set chunks := sizes.splitLengths data
  -- However the calls are planned, the view at the end is that of the data.
  have hfed : ∀ other : Plan, ∃ after : Hasher,
      (Hasher.updateFrom other 0 chunks).run Hasher.initial = .ok () after ∧
      View.of after = View.ofMessage data := by
    intro other
    obtain ⟨after, hrun, hview⟩ := Hasher.run_updateFrom other 0 chunks Hasher.initial
    rw [hcuts.flatten] at hview
    exact ⟨after, hrun, hview⟩
  refine ⟨⟨chunks, hcuts⟩, ?_, ?_⟩
  · intro choice last
    obtain ⟨after, hrun, hview⟩ := hfed fun _ => choice
    refine ⟨after, ?_, congrArg View.bitCount hview, ?_⟩
    · rw [hcuts.visits, ← Hasher.updateFrom_uniform choice 0, hrun]
    · rw [Hasher.run_finalize, hview]
      rfl
  · obtain ⟨after, hrun, hview⟩ := hfed plan
    rw [Chunking.stream, hcuts.split]
    show Hasher.fresh _ = _
    rw [Hasher.fresh, run_bind_of_ok hrun, Hasher.run_summarize, hview]

/-! ## Surveys -/

theorem foldlM_record (plan : Plan) {data : List UInt8} {summary : Summary}
    {found : List (List Nat)} (hfound : ∀ sizes ∈ found, stream plan data sizes = .ok summary)
    (tally : Tally) :
    found.foldlM (fun tally sizes => do
      return Tally.record tally (← stream plan data sizes)) tally =
      .ok ((List.replicate found.length summary).foldl Tally.record tally) := by
  induction found generalizing tally with
  | nil => rfl
  | cons sizes rest ih =>
    obtain ⟨hfirst, hrest⟩ := List.forall_mem_cons.mp hfound
    rw [List.foldlM_cons, hfirst]
    exact ih hrest (tally.record summary)

/-- The same summary over and over is one entry. -/
theorem foldl_record_replicate (summary : Summary) (n k : Nat) :
    (List.replicate k summary).foldl Tally.record [(summary, n)] = [(summary, n + k)] := by
  induction k generalizing n with
  | zero => rfl
  | succ k ih =>
    rw [List.replicate_succ, List.foldl_cons, Tally.record, if_pos rfl, ih (n + 1),
      Nat.add_right_comm]
    rfl

theorem survey_eq (plan : Plan) {data : List UInt8} (hdata : data.length < UInt64.size) :
    survey plan data =
      .ok [(Summary.ofView (View.ofMessage data), (compositions data.length).length)] := by
  have hstream : ∀ sizes ∈ compositions data.length,
      stream plan data sizes = .ok (Summary.ofView (View.ofMessage data)) := fun sizes hsizes =>
    (drives_of_sum plan (mem_compositions.mp hsizes).1 hdata).stream
  rw [survey, foldlM_record plan hstream]
  obtain ⟨k, hk⟩ := Nat.exists_eq_add_one.mpr (length_compositions_pos data.length)
  rw [hk, List.replicate_succ, List.foldl_cons, Tally.record, foldl_record_replicate, Nat.add_comm]

end Chunking

open Chunking

/-- Data streams alike however it is cut.  For every composition of its length, and every
stride that is accepted, the sizes cut the data, and a new hasher fed with the chunks counts
the bits of the data and digests it.  So a survey counts one summary, as often as there are
compositions.  The data has a length that a size can hold. -/
theorem chunked_streams_agree (plan other : Plan) {data : List UInt8}
    (hdata : data.length < 2 ^ 64) :
    ∃ summary : Summary,
      summary.bitCount.toNat = 8 * data.length % 2 ^ 64 ∧
      hash other data = .ok summary.digest ∧
      (∀ sizes ∈ compositions data.length, Drives plan data sizes summary) ∧
      (∀ stride sizes, strided data.length stride = .ok sizes →
        Drives plan data sizes summary ∧
          streamStrided plan data stride = .ok (sizes.length, summary)) ∧
      (∀ stride, (∃ sizes, strided data.length stride = .ok sizes) ↔
        data = [] ∨ ∃ step ∈ stride, step ≠ 0) ∧
      survey plan data =
        .ok [(summary, if data = [] then 1 else 2 ^ (data.length - 1))] := by
  refine ⟨Summary.ofView (View.ofMessage data), View.toNat_bitCount_ofMessage data,
    hash_eq other data, ?_, ?_, ?_, ?_⟩
  · intro sizes hsizes
    exact drives_of_sum plan (mem_compositions.mp hsizes).1 hdata
  · intro stride sizes hsizes
    have hdrives := drives_of_sum plan (sum_of_strided hdata hsizes).1 hdata
    refine ⟨hdrives, ?_⟩
    rw [streamStrided, hsizes]
    show (stream plan data sizes >>= _) = _
    rw [hdrives.stream]
    rfl
  · intro stride
    rw [strided_eq_ok_iff hdata, List.length_eq_zero_iff]
  · rw [survey_eq plan hdata, length_compositions]
    simp only [List.length_eq_zero_iff]

/-- A composition of three, and a stride with a step of zero. -/
theorem chunked_streams_agree_of_three :
    let plan := Plan.uniform .rolled
    let data : List UInt8 := [1, 2, 3]
    data.length < 2 ^ 64 ∧ [1, 2] ∈ compositions 3 ∧ strided 3 [0, 2] = .ok [0, 2, 0, 1] ∧
      ∃ summary, Drives plan data [1, 2] summary ∧ Drives plan data [0, 2, 0, 1] summary ∧
        survey plan data = .ok [(summary, 4)] := by
  intro plan data
  have hdata : data.length < 2 ^ 64 := by decide
  have hsizes : [1, 2] ∈ compositions 3 := mem_compositions.mpr (by decide)
  have hstride : strided 3 [0, 2] = .ok [0, 2, 0, 1] := by cbv
  obtain ⟨summary, -, -, hcompositions, hstrides, -, hsurvey⟩ :=
    chunked_streams_agree plan plan hdata
  exact ⟨hdata, hsizes, hstride, summary, hcompositions [1, 2] hsizes,
    (hstrides [0, 2] [0, 2, 0, 1] hstride).1, hsurvey⟩

end SecureHash
