import DisplayList.SharedPool
import DisplayList.Proofs.PoolRuns
import DisplayList.Proofs.Routine

namespace DisplayList.SharedPool

variable {p q : SharedPool} {e : RenderError} {n : Nat}

abbrev Run : SharedPool → SharedPool → Prop := Relation.ReflTransGen Move

section

variable (before after : List Stage) {x y : Stage} {s : PageStream}

theorem run_party (parties : p.parties = before ++ x :: after) (h : x.Move p.stream s y []) :
    Run p { p with stream := s, parties := before ++ y :: after } := by
  have hm := Move.party parties h
  rw [List.append_nil] at hm
  exact .single hm

theorem run_rendering (r : Routine Arrival) (parties : p.parties = before ++ .rendering n r :: after) :
    Run p { p with
      stream := { p.stream with worker := (r.run p.stream.worker).2 }
      parties := before ++ .rendered n (r.run p.stream.worker).1 :: after
      rendered := p.rendered ++ [(n, (r.run p.stream.worker).1)] } := by
  induction r generalizing p with
  | done a => exact .single (.party parties .complete)
  | act effect next ih => exact (run_party before after parties .act).trans (ih p.stream.worker rfl)

end

theorem run_stopping (r : Routine Unit) (stopping : p.asker = .stopping e r) :
    Run p { p with
      stream := { p.stream with worker := (r.run p.stream.worker).2 }
      asker := .free
      answers := p.answers ++ [some (.error e)] } := by
  induction r generalizing p with
  | done u => exact .single (.stopped stopping)
  | act effect next ih => exact .head (.stop stopping) (ih p.stream.worker rfl)

theorem run_other (before after : List (Routine Unit)) (r : Routine Unit) (others : p.others = before ++ r :: after) :
    Run p { p with
      stream := { p.stream with worker := (r.run p.stream.worker).2 }
      others := before ++ .done () :: after } := by
  induction r generalizing p with
  | done u =>
    rw [← others]
    exact .refl
  | act effect next ih => exact .head (.other others) (ih p.stream.worker rfl)

theorem run_callOff : Run p { p with
    stream := { p.stream with worker := p.stream.worker.cancelAll.2 }, others := .done () :: p.others } := by
  have hrun := run_other [] p.others (p := { p with others := .callOff :: p.others }) .callOff rfl
  rw [Routine.run_callOff] at hrun
  exact .head (.join .callOff) hrun

inductive Agrees (o : RenderOptions) : Party → Stage → Prop
  | idle : Agrees o .idle .idle
  | rendering (page : Page) (n : Nat) : Agrees o (.rendering page) (.rendering n (.arrival page o))
  | sending (a : Arrival) (n : Nat) : Agrees o (.sending a) (.rendered n a)
  | gone : Agrees o .gone .gone

/-- The shared pool stands where the other does, and nobody but its parties and the one who asked uses the worker. -/
structure Refines (p : Pool) (q : SharedPool) : Prop where
  stream : q.stream = p.stream
  parties : List.Forall₂ (Agrees p.stream.options) p.parties q.parties
  free : q.asker = .free
  answers : q.answers = p.items.map some ++ if p.ended then [none] else []

theorem exists_of_forall₂ {α β : Type} {R : α → β → Prop} {before after : List α} {x : α} {l : List β}
    (h : List.Forall₂ R (before ++ x :: after) l) :
    ∃ before' y after', l = before' ++ y :: after' ∧ R x y ∧
      ∀ z w, R z w → List.Forall₂ R (before ++ z :: after) (before' ++ w :: after') := by
  induction before generalizing l with
  | nil =>
    cases h with
    | @cons _ y _ after' hy hafter => exact ⟨[], y, after', rfl, hy, fun z w hw ↦ .cons hw hafter⟩
  | cons b before ih =>
    cases h with
    | @cons _ c _ l hc hl =>
      obtain ⟨before', y, after', rfl, hy, hput⟩ := ih hl
      exact ⟨c :: before', y, after', rfl, hy, fun z w hw ↦ .cons hc (hput z w hw)⟩

theorem gone_of_forall₂ {o : RenderOptions} {parties : List Party} {stages : List Stage}
    (h : List.Forall₂ (Agrees o) parties stages) (hg : ∀ p ∈ parties, p = .gone) : ∀ x ∈ stages, x = .gone := by
  induction h with
  | nil => exact List.forall_mem_nil _
  | cons hx _ ih =>
    obtain ⟨hgone, hg⟩ := List.forall_mem_cons.1 hg
    rw [hgone] at hx
    cases hx
    exact List.forall_mem_cons.2 ⟨rfl, ih hg⟩

theorem options_next {s : PageStream} (h : ¬ s.isWaiting ∨ s.sent = []) : s.next.2.options = s.options := by
  rcases PageStream.next_cases h with ⟨-, he⟩ | ⟨-, he⟩ | ⟨index, a, -, -, -, ⟨ir, -, he⟩ | ⟨e, -, he⟩⟩
  all_goals simp only [he, PageStream.stop]

theorem run_next (free : p.asker = .free) (can : p.CanAnswer) :
    Run p { p with stream := p.stream.next.2, answers := p.answers ++ [p.stream.next.1] } := by
  rcases PageStream.next_cases (can.imp_right And.left) with
    ⟨-, he⟩ | ⟨-, he⟩ | ⟨index, a, -, -, -, ⟨ir, -, he⟩ | ⟨e, -, he⟩⟩
  · exact .single (.next free can (by simp [he]))
  · exact .single (.next free can (by simp [he]))
  · exact .single (.next free can (by simp [he]))
  · obtain ⟨s, parties, asker, others, rendered, answers⟩ := p
    dsimp only at free he ⊢
    subst free
    have hstop := run_stopping (e := e) (p := ⟨{ s.next.2 with worker := s.worker }, parties, .stopping e .callOff,
      others, rendered, answers⟩) .callOff rfl
    rw [Routine.run_callOff] at hstop
    refine .head (.fail rfl can (by rw [he])) ?_
    rw [he] at hstop ⊢
    exact hstop

section

variable {index : Nat} {a : Arrival}

theorem canAnswer_of_find (hi : p.stream.order[p.stream.position]? = some index)
    (ha : p.stream.early.find? (·.index = index) = some a) : p.CanAnswer := by
  left
  intro hw
  obtain ⟨-, index', hi', ha'⟩ := PageStream.isWaiting_eq_true hw
  cases hi.symm.trans hi'
  cases ha.symm.trans ha'

theorem run_page {ir : Snapshot} (free : p.asker = .free) (hf : p.stream.hasFailed = false)
    (hi : p.stream.order[p.stream.position]? = some index) (ha : p.stream.early.find? (·.index = index) = some a)
    (hr : a.result = .ok ir) : Run p { p with
      stream := { p.stream with
        early := p.stream.early.filter (·.index ≠ index), position := p.stream.position + 1 }
      answers := p.answers ++ [some (.ok (index, ir))] } := by
  have hrun := run_next free (canAnswer_of_find hi ha)
  rw [(PageStream.next_of_find hf hi ha).1 ir hr] at hrun
  exact hrun

theorem run_failure (free : p.asker = .free) (hf : p.stream.hasFailed = false)
    (hi : p.stream.order[p.stream.position]? = some index) (ha : p.stream.early.find? (·.index = index) = some a)
    (hr : a.result = .error e) : Run p { p with
      stream := PageStream.stop { p.stream with
        early := p.stream.early.filter (·.index ≠ index), position := p.stream.position + 1, hasFailed := true }
      answers := p.answers ++ [some (.error e)] } := by
  have hrun := run_next free (canAnswer_of_find hi ha)
  rw [(PageStream.next_of_find hf hi ha).2 e hr] at hrun
  exact hrun

end

theorem Refines.move {p p' : Pool} {q : SharedPool} (h : Refines p q) (hm : Pool.Move p p') :
    ∃ q', Run q q' ∧ Refines p' q' := by
  obtain ⟨s, parties, items, ended⟩ := p
  obtain ⟨t, stages, asker, others, rendered, answers⟩ := q
  obtain ⟨hs, hp, hf, ha⟩ := h
  dsimp only at hs hp hf ha
  subst hs hf
  cases hm with
  | claim hc =>
    obtain ⟨hcancel, rest, hu, rfl⟩ := PageStream.claim_eq_some hc
    obtain ⟨before, x, after, rfl, hx, hput⟩ := exists_of_forall₂ hp
    cases hx
    exact ⟨_, .trans (run_party before after rfl (.enter (by simp [hcancel])))
      (run_party before after rfl (.claim hu)), rfl, hput _ _ (.rendering _ _), rfl, ha⟩
  | leave hc =>
    obtain ⟨before, x, after, rfl, hx, hput⟩ := exists_of_forall₂ hp
    cases hx
    cases hcancel : t.isCancelled with
    | true => exact ⟨_, run_party before after rfl (.leave hcancel), rfl, hput _ _ .gone, rfl, ha⟩
    | false =>
      have hu := PageStream.claim_eq_none hc hcancel
      exact ⟨_, .trans (run_party before after rfl (.enter (by simp [hcancel])))
        (run_party before after rfl (.finish hu)), rfl, hput _ _ .gone, rfl, ha⟩
  | @render _ _ _ _ _ page =>
    obtain ⟨before, x, after, rfl, hx, hput⟩ := exists_of_forall₂ hp
    cases hx
    refine ⟨_, run_rendering before after _ rfl, ?_, ?_, rfl, ha⟩
    · dsimp only
      rw [Routine.run_arrival]
      rfl
    · dsimp only
      rw [Routine.run_arrival]
      exact hput _ _ (.sending _ _)
  | @send _ _ _ _ _ a hc room =>
    obtain ⟨before, x, after, rfl, hx, hput⟩ := exists_of_forall₂ hp
    cases hx
    have hsend : t.send a = { t with sent := t.sent ++ [a] } := by rw [PageStream.send, if_neg hc]
    refine ⟨_, .trans (run_party before after rfl (.goOn hc)) (run_party before after rfl (.send room)), hsend.symm,
      ?_, rfl, ha⟩
    rw [hsend]
    exact hput _ _ .idle
  | abandon hc =>
    obtain ⟨before, x, after, rfl, hx, hput⟩ := exists_of_forall₂ hp
    cases hx
    exact ⟨_, run_party before after rfl (.giveUp hc), rfl, hput _ _ .gone, rfl, ha⟩
  | receive waits hr =>
    obtain ⟨-, a, rest, -, hrest⟩ := PageStream.receive_eq_some hr
    refine ⟨_, .single (.receive rfl waits hr), rfl, ?_, rfl, ha⟩
    rw [hrest]
    exact hp
  | next hg =>
    have can : CanAnswer ⟨t, stages, .free, others, rendered, answers⟩ :=
      hg.imp_right (And.imp_right (gone_of_forall₂ hp))
    refine ⟨_, run_next rfl can, rfl, ?_, rfl, ?_⟩
    · rw [options_next (can.imp_right And.left)]
      exact hp
    · cases t.next.1 <;> simp [ha]

theorem Refines.run {p p' : Pool} {q : SharedPool} (h : Refines p q) (hr : Pool.Run p p') :
    ∃ q', Run q q' ∧ Refines p' q' := by
  induction hr with
  | refl => exact ⟨q, .refl, h⟩
  | tail _ hm ih =>
    obtain ⟨q', hq, h⟩ := ih
    obtain ⟨q'', hq', h⟩ := h.move hm
    exact ⟨q'', hq.trans hq', h⟩

/-- What a pool may hand out, a pool whose worker is shared may hand out. -/
theorem exists_run_of_pool {pages : List Page} {o : RenderOptions} {threads available : Nat} {p p' : Pool}
    (hp : Pool.create pages o threads available = .ok p) (hr : Pool.Run p p') :
    ∃ q q', create pages o (Pool.partyCount threads available pages.length) = .ok q ∧ Run q q' ∧ Refines p' q' := by
  rw [Pool.create] at hp
  rw [create]
  cases hs : PageStream.create pages o with
  | error e =>
    rw [hs] at hp
    cases hp
  | ok s =>
    rw [hs] at hp
    cases hp
    have hidle (n : Nat) : List.Forall₂ (Agrees s.options) (.replicate n .idle) (.replicate n .idle) := by
      induction n with
      | zero => exact .nil
      | succ n ih => exact .cons .idle ih
    have h : Refines ⟨s, .replicate (Pool.partyCount threads available pages.length) .idle, [], false⟩
        { stream := s, parties := .replicate (Pool.partyCount threads available pages.length) .idle } :=
      ⟨rfl, hidle _, rfl, rfl⟩
    obtain ⟨q', hq, h⟩ := h.run hr
    exact ⟨_, q', rfl, hq, h⟩

end DisplayList.SharedPool
