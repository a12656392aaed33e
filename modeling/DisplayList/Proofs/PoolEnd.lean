import DisplayList.Proofs.Pool
import Mathlib.Algebra.Ring.Nat

namespace DisplayList.Pool

variable {pages : List Page} {o : RenderOptions}

def IsOpen (p : Pool) : Prop := p.ended = true ∨ p.stream.isDone = false

theorem IsOpen.move {p q : Pool} (h : p.IsOpen) (hm : Move p q) : q.IsOpen := by
  cases hm with
  | claim hc =>
    obtain ⟨-, rest, -, rfl⟩ := PageStream.claim_eq_some hc
    exact h
  | leave | render | abandon => exact h
  | @send s _ _ _ _ a =>
    have hs : (s.send a).isDone = s.isDone := by
      unfold PageStream.send
      split <;> rfl
    exact h.imp_right hs.trans
  | receive _ hr =>
    obtain ⟨hd, a, rest, -, rfl⟩ := PageStream.receive_eq_some hr
    exact .inr hd
  | next hg =>
    rcases PageStream.next_cases (hg.imp_right And.left) with
      ⟨-, he⟩ | ⟨-, he⟩ | ⟨index, a, -, -, -, ⟨ir, -, he⟩ | ⟨e, -, he⟩⟩
    · exact .inl (by rw [he]; rfl)
    · exact .inl (by rw [he]; rfl)
    · rw [he]
      exact h
    · rw [he]
      exact h

theorem exists_move {p : Pool} (h : p.IsOpen) (he : p.ended = false) : ∃ q, Move p q := by
  obtain ⟨s, parties, items, ended⟩ := p
  obtain rfl : ended = false := he
  have hd : s.isDone = false := h.resolve_left Bool.false_ne_true
  by_cases hw : s.isWaiting
  · cases hs : s.sent with
    | cons a rest => exact ⟨_, .receive hw (by simp only [PageStream.receive, hd, hs]; rfl)⟩
    | nil =>
      by_cases hg : ∀ p ∈ parties, p = .gone
      · exact ⟨_, .next (.inr ⟨hs, hg⟩)⟩
      · obtain ⟨x, hx, hne⟩ : ∃ x ∈ parties, x ≠ .gone := by simpa using hg
        obtain ⟨before, after, rfl⟩ := List.append_of_mem hx
        cases x with
        | idle =>
          cases hc : s.claim with
          | none => exact ⟨_, .leave hc⟩
          | some c => exact ⟨_, .claim hc⟩
        | rendering page => exact ⟨_, .render⟩
        | sending a =>
          by_cases hc : s.isCancelled
          · exact ⟨_, .abandon hc⟩
          · exact ⟨_, .send hc (by simp [hs, capacity])⟩
        | gone => exact absurd rfl hne
  · exact ⟨_, .next (.inl hw)⟩

def movesOf : Party → Nat
  | .rendering _ => 4
  | .sending _ => 3
  | .idle => 1
  | .gone => 0

/-- More moves than this are not left. -/
def movesLeft (p : Pool) : Nat :=
  4 * p.stream.unclaimed.length + (p.parties.map movesOf).sum + p.stream.sent.length +
    (p.stream.order.length - p.stream.position) + (if p.ended then 0 else 1)

theorem sum_movesOf (before : List Party) (x : Party) (after : List Party) :
    ((before ++ x :: after).map movesOf).sum = (before.map movesOf).sum + (movesOf x + (after.map movesOf).sum) := by
  rw [List.map_append, List.map_cons, List.sum_append, List.sum_cons]

theorem movesLeft_of_move {p q : Pool} (hm : Move p q) : q.movesLeft < p.movesLeft := by
  cases hm with
  | claim hc =>
    obtain ⟨-, rest, hu, rfl⟩ := PageStream.claim_eq_some hc
    simp only [movesLeft, sum_movesOf, movesOf, hu, List.length_cons]
    omega
  | leave =>
    simp only [movesLeft, sum_movesOf, movesOf]
    omega
  | render =>
    simp only [movesLeft, sum_movesOf, movesOf, PageStream.render]
    omega
  | send hc =>
    simp only [movesLeft, sum_movesOf, movesOf, PageStream.send, if_neg hc, List.length_append, List.length_singleton]
    omega
  | abandon =>
    simp only [movesLeft, sum_movesOf, movesOf]
    omega
  | receive _ hr =>
    obtain ⟨-, a, rest, hs, rfl⟩ := PageStream.receive_eq_some hr
    simp only [movesLeft, PageStream.keep, hs, List.length_cons]
    omega
  | next hg =>
    rcases PageStream.next_cases (hg.imp_right And.left) with
      ⟨-, he⟩ | ⟨-, he⟩ | ⟨index, a, -, hi, -, ⟨ir, -, he⟩ | ⟨e, -, he⟩⟩
    · simp [movesLeft, he]
    · simp [movesLeft, he]
    · have hlt := (List.getElem?_eq_some_iff.mp hi).1
      rw [he]
      simp only [movesLeft, Option.isNone_some, Bool.false_eq_true, if_false]
      omega
    · have hlt := (List.getElem?_eq_some_iff.mp hi).1
      rw [he]
      simp only [movesLeft, PageStream.stop, Option.isNone_some, Bool.false_eq_true, if_false]
      omega

/-- Whatever moves are made, they lead to where `P` holds. -/
inductive Inevitably (P : Pool → Prop) : Pool → Prop
  | here {p : Pool} (h : P p) : Inevitably P p
  | later {p : Pool} (moves : ∃ q, Move p q) (h : ∀ q, Move p q → Inevitably P q) : Inevitably P p

theorem Inevitably.exists_run {P : Pool → Prop} {p : Pool} (h : Inevitably P p) : ∃ q, Run p q ∧ P q := by
  induction h with
  | here h => exact ⟨_, .refl, h⟩
  | later moves _ ih =>
    obtain ⟨q, hm⟩ := moves
    obtain ⟨r, hr, h⟩ := ih q hm
    exact ⟨r, .head hm hr, h⟩

theorem Inevitably.of_run {P : Pool → Prop} {p q : Pool} (h : Inevitably P p) (hr : Run p q) :
    ∃ r, P r ∧ (Run r q ∨ Run q r) := by
  induction hr using Relation.ReflTransGen.head_induction_on with
  | refl =>
    obtain ⟨r, hr, h⟩ := h.exists_run
    exact ⟨r, h, .inr hr⟩
  | head hm hr ih =>
    cases h with
    | here h => exact ⟨_, h, .inl (.head hm hr)⟩
    | later _ h => exact ih (h _ hm)

theorem items_eq_of_run {p q : Pool} (h : p.ended = true) (hr : Run p q) : q.ended = true ∧ q.items = p.items := by
  induction hr with
  | refl => exact ⟨h, rfl⟩
  | tail _ hm ih =>
    rw [← ih.2]
    cases hm with
    | claim | leave | render | send | abandon => exact ⟨ih.1, rfl⟩
    | receive | next => cases ih.1

theorem Inevitably.items_eq {expected : List Item} {p q : Pool}
    (h : Inevitably (fun q ↦ q.ended = true ∧ q.items = expected) p) (hr : Run p q) (hq : q.ended = true) :
    q.items = expected := by
  obtain ⟨r, ⟨hended, hitems⟩, hrq | hqr⟩ := h.of_run hr
  · rw [(items_eq_of_run hended hrq).2, hitems]
  · rw [← (items_eq_of_run hq hqr).2, hitems]

theorem Sound.inevitably {p : Pool} (h : Sound pages o p) (hk : ∀ page ∈ pages, page.KeepsToList) (hopen : p.IsOpen) :
    Inevitably (fun q ↦ q.ended = true ∧ q.items = resultsInOrder o pages) p := by
  induction hn : p.movesLeft using Nat.strong_induction_on generalizing p with
  | _ n ih =>
    cases he : p.ended with
    | true => exact .here ⟨he, h.results (.inr he)⟩
    | false =>
      refine .later (exists_move hopen he) fun q hm ↦ ?_
      exact ih q.movesLeft (hn ▸ movesLeft_of_move hm) (h.move hk hm) (hopen.move hm) rfl

end DisplayList.Pool
