import PhyNspire.Lib.Stateful
import Mathlib.Data.Option.Basic

/-!
Breadth-first search with a queue that is also the result.

A visit follows one edge out of one point and reports the point at its end when that point
is new. The search ends when the head has passed every point of the queue, and then the
queue is closed under the edges.
-/

namespace PhyNspire.Lib.Search
open Stateful

variable {ε σ α β : Type}

def expand (visit : α → β → EStateM ε σ (Option α)) (point : α) : List β → List α → EStateM ε σ (List α)
  | [], queue => pure queue
  | edge :: edges, queue => do
      let found ← visit point edge
      expand visit point edges (queue ++ found.toList)

/-- The loop `while (head < tail)`, for a number of turns that no queue exceeds. -/
def explore (visit : α → β → EStateM ε σ (Option α)) (edges : List β) :
    Nat → Nat → List α → EStateM ε σ (List α)
  | 0, _, queue => pure queue
  | turns + 1, head, queue =>
      match queue[head]? with
      | none => pure queue
      | some point => do
          let queue ← expand visit point edges queue
          explore visit edges turns (head + 1) queue

section
variable {visit : α → β → EStateM ε σ (Option α)} {edges : List β} {bad : ε → σ → Prop}
  {inv : List α → σ → Prop} {target : α → β → Option α}

/-- What one visit has to keep: the invariant for the longer queue, which holds the end of the edge. -/
def Visits (visit : α → β → EStateM ε σ (Option α)) (edges : List β) (bad : ε → σ → Prop)
    (inv : List α → σ → Prop) (target : α → β → Option α) : Prop :=
  ∀ queue s, inv queue s → ∀ point ∈ queue, ∀ edge ∈ edges,
    wp (visit point edge)
      (fun found t => inv (queue ++ found.toList) t ∧ ∀ next ∈ target point edge, next ∈ queue ++ found.toList)
      bad s

theorem wp_expand (visits : Visits visit edges bad inv target) (some : List β) (included : some ⊆ edges)
    (point : α) (queue : List α) (s : σ) (member : point ∈ queue) (start : inv queue s) :
    wp (expand visit point some queue)
      (fun queue' t => inv queue' t ∧ queue <+: queue' ∧
        ∀ edge ∈ some, ∀ next ∈ target point edge, next ∈ queue') bad s := by
  induction some generalizing queue s with
  | nil => exact ⟨start, List.prefix_refl _, by simp⟩
  | cons edge rest ih =>
    simp only [expand, wp_bind]
    refine wp_good (visits queue s start point member edge (included (by simp))) ?_
    rintro found t ⟨held, reached⟩
    have grown := List.prefix_append queue found.toList
    refine wp_good (ih (fun _ inside => included (by simp [inside])) _ t (grown.subset member) held) ?_
    rintro queue' u ⟨held', longer, covered⟩
    refine ⟨held', grown.trans longer, fun other inside next ends => ?_⟩
    rcases List.mem_cons.mp inside with rfl | later
    · exact longer.subset (reached next ends)
    · exact covered other later next ends

/-- When the queue never exceeds a bound, that many turns are enough, and the result is closed. -/
theorem wp_explore (visits : Visits visit edges bad inv target) {bound : Nat}
    (bounded : ∀ queue s, inv queue s → queue.length ≤ bound) (turns head : Nat) (queue : List α) (s : σ)
    (enough : bound ≤ head + turns) (start : inv queue s)
    (done : ∀ point ∈ queue.take head, ∀ edge ∈ edges, ∀ next ∈ target point edge, next ∈ queue) :
    wp (explore visit edges turns head queue)
      (fun queue' t => inv queue' t ∧ queue <+: queue' ∧
        ∀ point ∈ queue', ∀ edge ∈ edges, ∀ next ∈ target point edge, next ∈ queue') bad s := by
  induction turns generalizing head queue s with
  | zero =>
    have whole : queue.take head = queue := List.take_of_length_le (by have := bounded queue s start; omega)
    rw [whole] at done
    exact ⟨start, List.prefix_refl _, done⟩
  | succ turns ih =>
    rw [explore]
    cases here : queue[head]? with
    | none =>
      have whole : queue.take head = queue := List.take_of_length_le (List.getElem?_eq_none_iff.mp here)
      rw [whole] at done
      exact ⟨start, List.prefix_refl _, done⟩
    | some point =>
      obtain ⟨inside, same⟩ := List.getElem?_eq_some_iff.mp here
      have member : point ∈ queue := same ▸ List.getElem_mem inside
      simp only [wp_bind]
      refine wp_good (wp_expand visits edges (List.Subset.refl _) point queue s member start) ?_
      rintro queue' t ⟨held, longer, covered⟩
      refine wp_good (ih (head + 1) queue' t (by omega) held ?_) ?_
      · intro other processed edge member' next ends
        have taken : queue'.take (head + 1) = queue.take (head + 1) :=
          (List.prefix_take_iff.mpr ⟨List.take_prefix _ _ |>.trans longer, List.length_take_le _ _⟩).eq_of_length (by
            simp only [List.length_take]
            have := longer.length_le
            omega) |>.symm
        rw [taken, List.take_add_one, here] at processed
        rcases List.mem_append.mp processed with earlier | last
        · exact longer.subset (done other earlier edge member' next ends)
        · obtain rfl : other = point := by simpa using last
          exact covered edge member' next ends
      · rintro queue'' u ⟨held', longer', closed⟩
        exact ⟨held', longer.trans longer', closed⟩

end

end PhyNspire.Lib.Search
