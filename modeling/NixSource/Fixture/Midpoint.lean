/-! The middle of a shortest way from one list to another. A step of a way goes past an element that
both lists share, or past one of either list alone, and a shortest way goes past the fewest alone.
The search goes from both ends at once, and is over when a way from one end meets a way from the
other. -/

namespace NixSource

/-- How many leading elements two lists share. -/
def sharedLength {α : Type} [DecidableEq α] : List α → List α → Nat
  | a :: as, b :: bs => if a = b then sharedLength as bs + 1 else 0
  | _, _ => 0

theorem take_sharedLength {α : Type} [DecidableEq α] (as bs : List α) :
    as.take (sharedLength as bs) = bs.take (sharedLength as bs) := by
  fun_induction sharedLength as bs with
  | case1 as b bs ih => simp [ih]
  | case2 => simp
  | case3 => simp

theorem drop_sharedLength_reverse {α : Type} [DecidableEq α] (as bs : List α) :
    as.drop (as.length - sharedLength as.reverse bs.reverse) =
      bs.drop (bs.length - sharedLength as.reverse bs.reverse) := by
  have h := take_sharedLength as.reverse bs.reverse
  rw [List.take_reverse, List.take_reverse] at h
  exact List.reverse_inj.mp h

/-- A run of shared elements: where it starts in the old and in the new list, and its length. -/
structure Snake where
  oldStart : Nat
  newStart : Nat
  length : Nat
deriving DecidableEq

namespace Snake

def oldEnd (s : Snake) : Nat :=
  s.oldStart + s.length

def newEnd (s : Snake) : Nat :=
  s.newStart + s.length

/-- Whether a run from the starts of lists of lengths `n` and `m` and one from their ends are on one
diagonal, with nothing between them. -/
def meets (n m : Nat) (s t : Snake) : Bool :=
  decide (s.oldEnd + t.oldEnd + m = s.newEnd + t.newEnd + n ∧ n ≤ s.oldEnd + t.oldEnd)

variable {α : Type} [DecidableEq α] (old new : List α)

/-- The longest run from a place in each list. -/
def longest (oldStart newStart : Nat) : Snake :=
  ⟨oldStart, newStart, sharedLength (old.drop oldStart) (new.drop newStart)⟩

/-- The runs one step past those of a front, on every diagonal but the first. A diagonal between two
others is reached from the one that leads farther along the old list. -/
def beyond : List Snake → List Snake
  | [] => []
  | [last] => [longest old new last.oldEnd (last.newEnd + 1)]
  | upper :: lower :: rest =>
    (if lower.oldEnd < upper.oldEnd then longest old new upper.oldEnd (upper.newEnd + 1)
      else longest old new (lower.oldEnd + 1) lower.newEnd) :: beyond (lower :: rest)

/-- The front one step past `front`. A front holds the farthest run on each diagonal that as many
steps past single elements lead to; the diagonal of the most old ones comes first. The front of no
such step follows on none. -/
def advance : List Snake → List Snake
  | [] => [longest old new 0 0]
  | first :: rest =>
    longest old new (first.oldEnd + 1) first.newEnd :: beyond old new (first :: rest)

/-- Where a front from the starts and one from the ends meet, within a number of rounds. -/
def meeting : Nat → List Snake → List Snake → Option (Nat × Nat)
  | 0, _, _ => none
  | rounds + 1, front, back =>
    let front := advance old new front
    match front.find? fun s => back.any (s.meets old.length new.length) with
    | some s => some (s.oldStart, s.newStart)
    | none =>
      let back := advance old.reverse new.reverse back
      match back.find? fun t => front.any (t.meets old.length new.length) with
      | some t => some (old.length - t.oldEnd, new.length - t.newEnd)
      | none => meeting rounds front back

end Snake

/-- How much of each list comes before the middle of a shortest way between them. -/
def midpoint {α : Type} [DecidableEq α] (old new : List α) : Option (Nat × Nat) :=
  Snake.meeting old new ((old.length + new.length + 1) / 2 + 1) [] []

end NixSource
