import DisplayList.Pool
import DisplayList.Proofs.PageStream
import Mathlib.Logic.Relation

namespace DisplayList.Pool

variable {s : PageStream} {parties before after : List Party} {items : List Item} {ended : Bool}

abbrev Run : Pool → Pool → Prop := Relation.ReflTransGen Move

theorem run_work (hc : s.isCancelled = false) (room : s.sent.length < capacity) :
    Run ⟨s, before ++ .idle :: after, items, ended⟩ ⟨s.work, before ++ .idle :: after, items, ended⟩ := by
  cases hclaim : s.claim with
  | none =>
    rw [PageStream.work, hclaim]
  | some c =>
    obtain ⟨page, s'⟩ := c
    obtain ⟨-, rest, -, rfl⟩ := PageStream.claim_eq_some hclaim
    rw [PageStream.work, hclaim]
    have hc' : ¬ s.isCancelled := by simp [hc]
    exact .head (.claim hclaim) (.head .render (.single (.send hc' room)))

theorem work_le (hc : s.isCancelled = false) :
    s.work.isCancelled = false ∧ s.work.sent.length ≤ s.sent.length + 1 := by
  cases hclaim : s.claim with
  | none =>
    rw [PageStream.work, hclaim]
    exact ⟨hc, Nat.le_succ _⟩
  | some c =>
    obtain ⟨page, s'⟩ := c
    obtain ⟨-, rest, -, rfl⟩ := PageStream.claim_eq_some hclaim
    rw [PageStream.work, hclaim]
    simp [PageStream.render, PageStream.send, hc]

theorem workAll_le (hc : s.isCancelled = false) :
    s.workAll.isCancelled = false ∧ s.workAll.sent.length ≤ s.sent.length + s.unclaimed.length := by
  unfold PageStream.workAll
  generalize s.unclaimed = pages
  induction pages generalizing s with
  | nil => exact ⟨hc, Nat.le_add_right _ _⟩
  | cons page pages ih =>
    obtain ⟨hc', hlen⟩ := work_le hc
    obtain ⟨hall, hle⟩ := ih hc'
    refine ⟨hall, hle.trans ?_⟩
    rw [List.length_cons]
    omega

theorem run_workAll (hc : s.isCancelled = false) (room : s.sent.length + s.unclaimed.length ≤ capacity) :
    Run ⟨s, before ++ .idle :: after, items, ended⟩ ⟨s.workAll, before ++ .idle :: after, items, ended⟩ := by
  unfold PageStream.workAll
  generalize s.unclaimed = pages at room
  induction pages generalizing s with
  | nil => exact .refl
  | cons page pages ih =>
    rw [List.length_cons] at room
    obtain ⟨hc', hlen⟩ := work_le hc
    exact (run_work hc (by omega)).trans (ih hc' (by omega))

theorem run_workBehind (hc : s.isCancelled = false) (room : s.sent.length + s.unclaimed.length ≤ capacity) :
    Run ⟨s, .idle :: .idle :: after, items, ended⟩ ⟨s.workBehind, .idle :: .idle :: after, items, ended⟩ := by
  cases hclaim : s.claim with
  | none =>
    rw [PageStream.workBehind, hclaim]
  | some c =>
    obtain ⟨page, s'⟩ := c
    obtain ⟨-, rest, hu, rfl⟩ := PageStream.claim_eq_some hclaim
    rw [hu, List.length_cons] at room
    have hfirst : Move ⟨s, [] ++ .idle :: .idle :: after, items, ended⟩
        ⟨{ s with unclaimed := rest }, [] ++ .rendering page :: .idle :: after, items, ended⟩ := .claim hclaim
    have hothers : Run ⟨{ s with unclaimed := rest }, [.rendering page] ++ .idle :: after, items, ended⟩
        ⟨PageStream.workAll { s with unclaimed := rest }, [.rendering page] ++ .idle :: after, items, ended⟩ :=
      run_workAll hc (by dsimp only; omega)
    obtain ⟨hc', hlen⟩ := workAll_le (s := { s with unclaimed := rest }) hc
    have hsend : ¬ (PageStream.workAll { s with unclaimed := rest }).isCancelled := by simp [hc']
    have hlast : Run
        ⟨PageStream.workAll { s with unclaimed := rest }, [] ++ .rendering page :: .idle :: after, items, ended⟩
        ⟨s.workBehind, [] ++ .idle :: .idle :: after, items, ended⟩ := by
      rw [PageStream.workBehind, hclaim]
      exact .head .render (.single (.send hsend (by dsimp only [PageStream.render] at hlen ⊢; omega)))
    exact .head hfirst (hothers.trans hlast)

theorem next_of_receive {s' : PageStream} (hw : s.isWaiting) (hr : s.receive = some s') : s.next = s'.next := by
  obtain ⟨hfail, index, hi, hf⟩ := PageStream.isWaiting_eq_true hw
  have hawait : s.await index = s'.await index := by
    conv_lhs => unfold PageStream.await
    rw [hf]
    dsimp only
    split
    · rename_i s'' hr'
      rw [Option.some.inj (hr'.symm.trans hr)]
    · rename_i hr'
      cases hr'.symm.trans hr
  have hsame : s'.hasFailed = s.hasFailed ∧ s'.order[s'.position]? = s.order[s.position]? := by
    obtain ⟨-, a, rest, -, rfl⟩ := PageStream.receive_eq_some hr
    exact ⟨rfl, rfl⟩
  simp only [PageStream.next, hsame.1, hsame.2, hfail, hi, hawait, Bool.false_eq_true, if_false]

theorem run_next (hd : s.isDone = false) (hg : ∀ p ∈ parties, p = .gone) :
    Run ⟨s, parties, items, false⟩ ⟨s.next.2, parties, items ++ s.next.1.toList, s.next.1.isNone⟩ := by
  induction hn : s.sent.length using Nat.strong_induction_on generalizing s with
  | _ n ih =>
    by_cases hw : s.isWaiting
    · cases hs : s.sent with
      | nil => exact .single (.next (.inr ⟨hs, hg⟩))
      | cons a rest =>
        have hr : s.receive = some (PageStream.keep { s with sent := rest } a) := by
          simp only [PageStream.receive, hd, hs, Bool.false_eq_true, if_false]
        rw [next_of_receive hw hr]
        exact .head (.receive hw hr) (ih rest.length (by simp [← hn, hs]) hd rfl)
    · exact .single (.next (.inl hw))

end DisplayList.Pool
