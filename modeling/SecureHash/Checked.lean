import SecureHash.Fault

/-!
Arithmetic, cuts and copies that refuse what does not fit.

Sizes are natural numbers that fit a word of sixty-four bits.  Each operation here equals the plain
one under the condition stated beside it, so that a proof of absence of faults
discharges one condition per call.
-/

namespace SecureHash
namespace Checked

def add (a b : Nat) : Except Fault Nat :=
  if a + b < UInt64.size then .ok (a + b) else .error .sumOverflow

def sub (a b : Nat) : Except Fault Nat :=
  if b ≤ a then .ok (a - b) else .error .underflow

def equal (left right : Nat) : Except Fault Unit :=
  if left = right then .ok () else .error (.unequal left right)

/-- The first `n` elements and the others.  Only the part in front is measured,
so that cutting a long list into many pieces stays linear. -/
def split {α : Type} (l : List α) (n : Nat) : Except Fault (List α × List α) :=
  if (l.take n).length = n then .ok (l.take n, l.drop n) else .error (.outOfRange n l.length)

/-- Put `src` in the place of positions `start` to `stop`. -/
def overwrite {α : Type} {n : Nat} (old : Vector α n) (start stop : Nat) (src : List α) :
    Except Fault (Vector α n) :=
  if h : start ≤ stop ∧ stop ≤ n then
    if hs : src.length = stop - start then
      .ok ⟨(old.toList.take start ++ src ++ old.toList.drop stop).toArray, by
        simp only [List.size_toArray, List.length_append, List.length_take, List.length_drop,
          Vector.length_toList]
        omega⟩
    else .error (.copyLength src.length (stop - start))
  else .error (.outOfRange stop n)

theorem add_eq_ok {a b : Nat} (h : a + b < UInt64.size) : add a b = .ok (a + b) := if_pos h

theorem sub_eq_ok {a b : Nat} (h : b ≤ a) : sub a b = .ok (a - b) := if_pos h

theorem equal_eq_ok {a b : Nat} (h : a = b) : equal a b = .ok () := if_pos h

theorem split_eq_ok {α : Type} {l : List α} {n : Nat} (h : n ≤ l.length) :
    split l n = .ok (l.take n, l.drop n) := by
  rw [split, if_pos (by rw [List.length_take, Nat.min_eq_left h])]

theorem overwrite_eq_ok {α : Type} {n start stop : Nat} (old : Vector α n) {src : List α}
    (h : start ≤ stop) (hn : stop ≤ n) (hs : src.length = stop - start) :
    ∃ new, overwrite old start stop src = .ok new ∧
      new.toList = old.toList.take start ++ src ++ old.toList.drop stop := by
  rw [overwrite, dif_pos ⟨h, hn⟩, dif_pos hs]
  exact ⟨_, rfl, rfl⟩

end Checked
end SecureHash
