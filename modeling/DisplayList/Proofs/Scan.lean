import DisplayList.Optimizer
import DisplayList.Proofs.ImageRuns
import DisplayList.Proofs.MaskRuns
import DisplayList.Proofs.TextRuns
import Mathlib.Logic.Relation

namespace DisplayList

open Columns (ofList)

namespace LeadIn

variable {l l' : LeadIn} {q r : List Instruction} {stop : Nat} {p : Pattern} {tag : Tag}

structure Reads (l : LeadIn) (q : List Instruction) (stop : Nat) : Prop where
  depth_le : l.depth ≤ stop
  tags : ∀ p ∈ l.live, ∀ k < l.depth, q[stop - l.depth + k]?.map (·.tag) = p.group[k]?
  root : l.depth = 0 → l = .root

theorem reads_root (q : List Instruction) (stop : Nat) : root.Reads q stop :=
  ⟨Nat.zero_le _, fun _ _ _ hk ↦ absurd hk (Nat.not_lt_zero _), fun _ ↦ rfl⟩

theorem Reads.append (h : l.Reads q stop) (hq : stop ≤ q.length) (r : List Instruction) : l.Reads (q ++ r) stop := by
  have hd := h.depth_le
  refine ⟨hd, fun p hp k hk ↦ ?_, h.root⟩
  rw [List.getElem?_append_left (by omega)]
  exact h.tags p hp k hk

theorem Reads.tags_succ (h : l.Reads q stop) (ht : q[stop]?.map (·.tag) = some tag) (hp : p ∈ l.live)
    (hg : p.group[l.depth]? = some tag) : ∀ k < l.depth + 1, q[stop - l.depth + k]?.map (·.tag) = p.group[k]? := by
  intro k hk
  obtain hk | rfl := Nat.lt_succ_iff_lt_or_eq.1 hk
  · exact h.tags p hp k hk
  · rw [Nat.sub_add_cancel h.depth_le, ht, hg]

theorem step_advanced (h : l.step tag = .advanced l') :
    l' = ⟨l.live.filter fun p ↦ p.group[l.depth]? = some tag, l.depth + 1⟩ := by
  grind [step]

theorem step_complete (h : l.step tag = .complete p) :
    p ∈ l.live ∧ p.group[l.depth]? = some tag ∧ p.period = l.depth + 1 := by
  refine ⟨?_, ?_, period_of_step h⟩
  · grind [step]
  · grind [step]

theorem Reads.step_advanced (h : l.Reads q stop) (ht : q[stop]?.map (·.tag) = some tag)
    (hs : l.step tag = .advanced l') : l'.Reads q (stop + 1) := by
  have hd := h.depth_le
  rw [LeadIn.step_advanced hs]
  refine ⟨Nat.succ_le_succ hd, fun p hp k hk ↦ ?_, fun h₀ ↦ absurd h₀ (Nat.succ_ne_zero _)⟩
  obtain ⟨hlive, hg⟩ := List.mem_filter.1 hp
  dsimp only at hk ⊢
  rw [Nat.add_sub_add_right]
  exact h.tags_succ ht hlive (of_decide_eq_true hg) k hk

theorem Reads.step_complete (h : l.Reads q stop) (ht : q[stop]?.map (·.tag) = some tag)
    (hs : l.step tag = .complete p) :
    p.period ≤ stop + 1 ∧ ∀ i, stop + 1 - p.period ≤ i → i < stop + 1 → p.TagFits q (stop + 1 - p.period) i := by
  have hd := h.depth_le
  obtain ⟨hlive, hg, hperiod⟩ := LeadIn.step_complete hs
  have hfirst : stop + 1 - p.period = stop - l.depth := by omega
  refine ⟨by omega, fun i hi his ↦ ?_⟩
  rw [hfirst] at hi ⊢
  rw [Pattern.TagFits, Nat.mod_eq_of_lt (by omega), ← h.tags_succ ht hlive hg _ (by omega), Nat.add_sub_cancel' hi]

theorem read_eq (l : LeadIn) (tag : Tag) :
    (l.step tag ≠ .miss ∧ l.read tag = l.step tag) ∨ (l.step tag = .miss ∧ l.read tag = root.step tag) := by
  cases h : l.step tag <;> simp [read, h]

theorem Reads.read_advanced (h : l.Reads q stop) (ht : q[stop]?.map (·.tag) = some tag)
    (hr : l.read tag = .advanced l') : l'.Reads q (stop + 1) := by
  obtain ⟨-, he⟩ | ⟨-, he⟩ := l.read_eq tag
  · exact h.step_advanced ht (he ▸ hr)
  · exact (reads_root q stop).step_advanced ht (he ▸ hr)

theorem Reads.read_complete (h : l.Reads q stop) (ht : q[stop]?.map (·.tag) = some tag)
    (hr : l.read tag = .complete p) :
    p.period ≤ stop + 1 ∧ ∀ i, stop + 1 - p.period ≤ i → i < stop + 1 → p.TagFits q (stop + 1 - p.period) i := by
  obtain ⟨-, he⟩ | ⟨-, he⟩ := l.read_eq tag
  · exact h.step_complete ht (he ▸ hr)
  · exact (reads_root q stop).step_complete ht (he ▸ hr)

theorem read_root_of_not_begins (h : ¬ Pattern.begins tag) : root.read tag = .miss := by
  have hs : root.step tag = .miss := by
    have hnext : root.live.filter (fun p ↦ p.group[root.depth]? = some tag) = [] := by
      rw [List.filter_eq_nil_iff]
      intro p hp hg
      refine h (List.any_eq_true.2 ⟨p, hp, ?_⟩)
      rw [List.head?_eq_getElem?]
      exact hg
    rw [step, hnext]
    rfl
  obtain ⟨-, he⟩ | ⟨-, he⟩ := root.read_eq tag
  · rw [he, hs]
  · rw [he, hs]

end LeadIn

theorem Pattern.batch_gives {p : Pattern} {l : Limits} {q : List Instruction} {first stop : Nat} (hl : l.Valid)
    (h : p.IsRun q first stop) :
    ∃ b start next form, p.batch l (ofList q) first stop = .ok b ∧ Gives l q first stop b start next form := by
  cases p with
  | inlineImages => exact batchInlineImages_gives hl h
  | imageMasks =>
    obtain ⟨b, next, form, hb, hg⟩ := batchImageMasks_gives hl h
    exact ⟨b, first, next, form, hb, hg⟩
  | images => exact batchImages_gives hl h
  | glyphRuns => exact batchGlyphRuns_gives hl h

namespace Optimizer

/-- One step of a scan. A run ends at an instruction that does not go on with it, or where the queue ends. -/
inductive Step : Optimizer × List Instruction → Optimizer × List Instruction → Prop
  | follow {o : Optimizer} {q : List Instruction} {run : Run} (hrun : o.run = some run)
    (htag : run.pattern.TagFits q run.first o.resume) (hargs : run.pattern.agrees q run.first o.resume) :
    Step (o, q) ({ o with resume := o.resume + 1 }, q)
  | close {o : Optimizer} {q : List Instruction} {run : Run} {b : Batching} {start next : Nat} {form : List Instruction}
    (hrun : o.run = some run)
    (hend : ¬ (run.pattern.TagFits q run.first o.resume ∧ run.pattern.agrees q run.first o.resume))
    (hbatch : run.pattern.batch o.limits (ofList q) run.first o.resume = .ok b)
    (hgives : Pattern.Gives o.limits q run.first o.resume b start next form) :
    Step (o, q) ({ limits := o.limits, resume := start + form.length }, q.take start ++ form ++ q.drop next)
  | skip {o : Optimizer} {q : List Instruction} {tag : Tag} (hrun : o.run = none)
    (htag : q[o.resume]?.map (·.tag) = some tag) (hread : o.leadIn.read tag = .miss) :
    Step (o, q) ({ o with leadIn := .root, resume := o.resume + 1 }, q)
  | lead {o : Optimizer} {q : List Instruction} {tag : Tag} {l : LeadIn} (hrun : o.run = none)
    (htag : q[o.resume]?.map (·.tag) = some tag) (hread : o.leadIn.read tag = .advanced l) :
    Step (o, q) ({ o with leadIn := l, resume := o.resume + 1 }, q)
  | enter {o : Optimizer} {q : List Instruction} {tag : Tag} {p : Pattern} (hrun : o.run = none)
    (htag : q[o.resume]?.map (·.tag) = some tag) (hread : o.leadIn.read tag = .complete p)
    (hopens : p.opens q (o.resume + 1 - p.period)) :
    Step (o, q) ({ o with leadIn := .root, run := some ⟨p, o.resume + 1 - p.period⟩, resume := o.resume + 1 }, q)
  | refuse {o : Optimizer} {q : List Instruction} {tag : Tag} {p : Pattern} (hrun : o.run = none)
    (htag : q[o.resume]?.map (·.tag) = some tag) (hread : o.leadIn.read tag = .complete p)
    (hopens : ¬ p.opens q (o.resume + 1 - p.period)) :
    Step (o, q) ({ o with leadIn := .root, resume := o.resume + 1 }, q)

/-- What the optimizer remembers is true of the queue. -/
structure Recalls (o : Optimizer) (q : List Instruction) : Prop where
  valid : o.limits.Valid
  within : o.resume ≤ q.length
  leadIn : o.leadIn.Reads q o.resume
  run : ∀ run, o.run = some run → o.leadIn = .root ∧ run.pattern.IsRun q run.first o.resume

variable {o o' : Optimizer} {q q' r : List Instruction} {c : Columns}

theorem recalls_fresh {l : Limits} (hl : l.Valid) {n : Nat} (hn : n ≤ q.length) :
    Recalls { limits := l, resume := n } q :=
  ⟨hl, hn, LeadIn.reads_root q n, fun _ h ↦ by cases h⟩

theorem Recalls.append (h : o.Recalls q) (r : List Instruction) : o.Recalls (q ++ r) where
  valid := h.valid
  within := h.within.trans (by rw [List.length_append]; exact Nat.le_add_right _ _)
  leadIn := h.leadIn.append h.within r
  run run hr := ⟨(h.run run hr).1, (h.run run hr).2.append r⟩

theorem Recalls.exists_step {s : Optimizer × List Instruction} (h : s.1.Recalls s.2) (hlt : s.1.resume < s.2.length) :
    ∃ s', Step s s' := by
  obtain ⟨o, q⟩ := s
  dsimp only at hlt
  cases hrun : o.run with
  | some run =>
    by_cases hend : run.pattern.TagFits q run.first o.resume ∧ run.pattern.agrees q run.first o.resume
    · exact ⟨_, .follow hrun hend.1 hend.2⟩
    · obtain ⟨b, start, next, form, hb, hg⟩ := Pattern.batch_gives h.valid (h.run run hrun).2
      exact ⟨_, .close hrun hend hb hg⟩
  | none =>
    have htag : q[o.resume]?.map (·.tag) = some q[o.resume].tag := by rw [List.getElem?_eq_getElem hlt]; rfl
    cases hread : o.leadIn.read q[o.resume].tag with
    | miss => exact ⟨_, .skip hrun htag hread⟩
    | advanced l => exact ⟨_, .lead hrun htag hread⟩
    | complete p =>
      by_cases hopens : p.opens q (o.resume + 1 - p.period)
      · exact ⟨_, .enter hrun htag hread hopens⟩
      · exact ⟨_, .refuse hrun htag hread hopens⟩

theorem lt_of_tag {i : Nat} {tag : Tag} (h : q[i]?.map (·.tag) = some tag) : i < q.length := by
  obtain ⟨a, ha, -⟩ := Option.map_eq_some_iff.1 h
  exact (List.getElem?_eq_some_iff.1 ha).1

theorem lt_of_tagFits {p : Pattern} {first i : Nat} (h : p.TagFits q first i) : i < q.length := by
  have hmod := Nat.mod_lt (i - first) p.period_pos
  rw [Pattern.TagFits, List.getElem?_eq_getElem hmod] at h
  exact lt_of_tag h

theorem Step.recalls {s s' : Optimizer × List Instruction} (h : Step s s') (hs : s.1.Recalls s.2) :
    s'.1.Recalls s'.2 := by
  cases h with
  | @follow o q run hrun htag hargs =>
    have hlt := lt_of_tagFits htag
    obtain ⟨hroot, hisRun⟩ := hs.run run hrun
    refine ⟨hs.valid, hlt, ?_, fun run' hrun' ↦ ?_⟩
    · dsimp only
      rw [hroot]
      exact LeadIn.reads_root _ _
    · obtain rfl : run = run' := Option.some.inj (hrun.symm.trans hrun')
      exact ⟨hroot, hisRun.extend hlt htag hargs⟩
  | @close o q run b start next form hrun hend hbatch hgives =>
    exact recalls_fresh hs.valid (hgives.length_form_le hs.within)
  | skip hrun htag hread =>
    exact ⟨hs.valid, lt_of_tag htag, LeadIn.reads_root _ _, fun run hr ↦ by cases hrun.symm.trans hr⟩
  | lead hrun htag hread =>
    exact ⟨hs.valid, lt_of_tag htag, hs.leadIn.read_advanced htag hread, fun run hr ↦ by cases hrun.symm.trans hr⟩
  | @enter o q tag p hrun htag hread hopens =>
    refine ⟨hs.valid, lt_of_tag htag, LeadIn.reads_root _ _, fun run hr ↦ ?_⟩
    obtain rfl := Option.some.inj hr
    obtain ⟨hperiod, htags⟩ := hs.leadIn.read_complete htag hread
    dsimp only at hperiod
    refine ⟨rfl, ?_, lt_of_tag htag, htags, hopens, fun i hi his ↦ ?_⟩
    · dsimp only; omega
    · dsimp only at hi his; omega
  | refuse hrun htag hread hopens =>
    exact ⟨hs.valid, lt_of_tag htag, LeadIn.reads_root _ _, fun run hr ↦ by cases hrun.symm.trans hr⟩

section Unfolding

variable {run : Run} {tag : Tag}

theorem scan_run (hlt : o.resume < q.length) (hrun : o.run = some run)
    (h : run.pattern.IsRun q run.first o.resume) : o.scan (ofList q) =
      if run.pattern.TagFits q run.first o.resume ∧ run.pattern.agrees q run.first o.resume then
        scan { o with resume := o.resume + 1 } (ofList q)
      else
        run.pattern.batch o.limits (ofList q) run.first o.resume >>= fun b ↦
          if b.columns.size - b.resume < q.length - run.first then
            scan { limits := o.limits, resume := b.resume } b.columns
          else
            .error .noProgress := by
  have hsize : o.resume < (ofList q).size := by rwa [Columns.size_ofList]
  have hc := Pattern.continues_eq h hlt
  rw [scan, dif_pos hsize]
  split
  · rename_i run' hrun'
    obtain rfl : run = run' := Option.some.inj (hrun.symm.trans hrun')
    rw [hc, ok_bind, Columns.size_ofList]
    by_cases hend : run.pattern.TagFits q run.first o.resume ∧ run.pattern.agrees q run.first o.resume
    · rw [if_pos hend, decide_eq_true hend.1, hend.2]
      rfl
    · rw [if_neg hend, if_neg (by simpa using hend)]
  · rename_i hrun'
    cases hrun.symm.trans hrun'

theorem scan_none (hrun : o.run = none) (htag : q[o.resume]?.map (·.tag) = some tag) : o.scan (ofList q) =
    match o.leadIn.read tag with
    | .miss => scan { o with leadIn := .root, resume := o.resume + 1 } (ofList q)
    | .advanced l => scan { o with leadIn := l, resume := o.resume + 1 } (ofList q)
    | .complete p =>
      if p.period ≤ o.resume + 1 then
        p.admits (ofList q) (o.resume + 1 - p.period) >>= fun opens ↦
          if opens then
            scan { o with leadIn := .root, run := some ⟨p, o.resume + 1 - p.period⟩, resume := o.resume + 1 } (ofList q)
          else
            scan { o with leadIn := .root, resume := o.resume + 1 } (ofList q)
      else
        .error .belowZero := by
  obtain ⟨i, hi, rfl⟩ := Option.map_eq_some_iff.1 htag
  have hsize : o.resume < (ofList q).size := by rw [Columns.size_ofList]; exact lt_of_tag htag
  rw [scan, dif_pos hsize]
  split
  · rename_i run' hrun'
    cases hrun.symm.trans hrun'
  · rw [Columns.tagAt_ofList hi, ok_bind]
    split <;> rename_i hread <;> rw [hread]

end Unfolding

theorem Step.scan_eq {s s' : Optimizer × List Instruction} (h : Step s s') (hs : s.1.Recalls s.2)
    (hlt : s.1.resume < s.2.length) : s.1.scan (ofList s.2) = s'.1.scan (ofList s'.2) := by
  cases h with
  | @follow o q run hrun htag hargs =>
    rw [scan_run hlt hrun (hs.run run hrun).2, if_pos ⟨htag, hargs⟩]
  | @close o q run b start next form hrun hend hbatch hgives =>
    rw [scan_run hlt hrun (hs.run run hrun).2, if_neg hend, hbatch, ok_bind, hgives.batching]
    dsimp only
    rw [if_pos (by rw [Columns.size_ofList]; exact hgives.rest_lt hs.within)]
  | skip hrun htag hread => rw [scan_none hrun htag, hread]
  | lead hrun htag hread => rw [scan_none hrun htag, hread]
  | @enter o q tag p hrun htag hread hopens =>
    have hperiod := (hs.leadIn.read_complete htag hread).1
    rw [scan_none hrun htag, hread]
    dsimp only at hlt hperiod ⊢
    rw [if_pos hperiod, Pattern.admits_eq (by omega), hopens]
    rfl
  | @refuse o q tag p hrun htag hread hopens =>
    have hperiod := (hs.leadIn.read_complete htag hread).1
    rw [scan_none hrun htag, hread]
    dsimp only at hlt hperiod ⊢
    rw [if_pos hperiod, Pattern.admits_eq (by omega), Bool.eq_false_iff.2 hopens]
    rfl

theorem start_run {run : Run} (h : o.run = some run) : o.start = run.first := by rw [start, h]

theorem start_none (h : o.run = none) : o.start = o.resume - o.leadIn.depth := by rw [start, h]

theorem Step.start_le {s s' : Optimizer × List Instruction} (h : Step s s') :
    (s'.2 = s.2 ∧ s.1.start ≤ s'.1.start) ∨
      ∃ b start next form, Pattern.Gives s.1.limits s.2 s.1.start s.1.resume b start next form ∧
        s'.2 = s.2.take start ++ form ++ s.2.drop next ∧ s'.1.start = start + form.length := by
  cases h with
  | @follow o q run hrun =>
    have hrun' : { o with resume := o.resume + 1 }.run = some run := hrun
    exact .inl ⟨rfl, by dsimp only; rw [start_run hrun, start_run hrun']⟩
  | @close o q run b start next form hrun hend hbatch hgives =>
    refine .inr ⟨b, start, next, form, ?_, rfl, rfl⟩
    rwa [start_run hrun]
  | @skip o q tag hrun =>
    have hrun' : { o with leadIn := .root, resume := o.resume + 1 }.run = none := hrun
    refine .inl ⟨rfl, ?_⟩
    dsimp only
    rw [start_none hrun, start_none hrun']
    dsimp only [LeadIn.root]
    omega
  | @lead o q tag l hrun htag hread =>
    have hrun' : { o with leadIn := l, resume := o.resume + 1 }.run = none := hrun
    have hdepth := LeadIn.depth_of_read hread
    refine .inl ⟨rfl, ?_⟩
    dsimp only
    rw [start_none hrun, start_none hrun']
    dsimp only
    omega
  | @enter o q tag p hrun htag hread =>
    have hperiod := LeadIn.period_of_read hread
    refine .inl ⟨rfl, ?_⟩
    dsimp only
    rw [start_none hrun, start_run rfl]
    dsimp only
    omega
  | @refuse o q tag p hrun =>
    have hrun' : { o with leadIn := .root, resume := o.resume + 1 }.run = none := hrun
    refine .inl ⟨rfl, ?_⟩
    dsimp only
    rw [start_none hrun, start_none hrun']
    dsimp only [LeadIn.root]
    omega

theorem Step.rest_le {s s' : Optimizer × List Instruction} (h : Step s s') (hs : s.1.Recalls s.2) :
    s'.2.length - s'.1.start ≤ s.2.length - s.1.start := by
  obtain ⟨hq, hle⟩ | ⟨b, start, next, form, hgives, hq, hstart⟩ := h.start_le
  · rw [hq]
    omega
  · rw [hq, hstart]
    exact (hgives.rest_lt hs.within).le

theorem Step.lt {s s' : Optimizer × List Instruction} (h : Step s s') (hs : s.1.Recalls s.2) :
    s'.2.length - s'.1.start < s.2.length - s.1.start ∨ s'.2 = s.2 ∧ s'.1.resume = s.1.resume + 1 := by
  cases h with
  | @close o q run b start next form hrun hend hbatch hgives =>
    left
    dsimp only
    rw [start_run hrun, start_none rfl]
    exact hgives.rest_lt hs.within
  | _ => exact .inr ⟨rfl, rfl⟩

/-- The scan comes to the end of the queue, by steps and without a fault. -/
theorem scan_ok (s : Optimizer × List Instruction) (hs : s.1.Recalls s.2) :
    ∃ s', Relation.ReflTransGen Step s s' ∧ s'.1.resume = s'.2.length ∧
      s.1.scan (ofList s.2) = .ok (s'.1, ofList s'.2) := by
  obtain hlt | heq := hs.within.lt_or_eq
  · obtain ⟨s₁, hstep⟩ := hs.exists_step hlt
    have hlex := hstep.lt hs
    have hle := hstep.rest_le hs
    obtain ⟨s', hsteps, hend, hscan⟩ := scan_ok s₁ (hstep.recalls hs)
    exact ⟨s', .head hstep hsteps, hend, (hstep.scan_eq hs hlt).trans hscan⟩
  · refine ⟨s, .refl, heq, ?_⟩
    rw [scan, dif_neg (by rw [Columns.size_ofList]; omega)]
-- A run that gives way takes scanning back, so what comes after the start of the run counts first.
termination_by (s.2.length - s.1.start, s.2.length - s.1.resume)
decreasing_by
  rw [Prod.lex_def]
  obtain hlex | ⟨hq, hresume⟩ := hlex
  · exact .inl hlex
  · rw [hq] at hle ⊢
    dsimp only
    omega

theorem scan_end (h : o.resume = q.length) : o.scan (ofList q) = .ok (o, ofList q) := by
  rw [scan, dif_neg (by rw [Columns.size_ofList]; omega)]

section Runs

variable {s s' : Optimizer × List Instruction}

theorem recalls_of_steps (h : Relation.ReflTransGen Step s s') (hs : s.1.Recalls s.2) : s'.1.Recalls s'.2 := by
  induction h with
  | refl => exact hs
  | tail _ hstep ih => exact hstep.recalls ih

theorem rest_le_of_steps (h : Relation.ReflTransGen Step s s') (hs : s.1.Recalls s.2) :
    s'.2.length - s'.1.start ≤ s.2.length - s.1.start := by
  induction h with
  | refl => exact le_rfl
  | tail hsteps hstep ih => exact (hstep.rest_le (recalls_of_steps hsteps hs)).trans ih

theorem limits_of_steps (h : Relation.ReflTransGen Step s s') : s'.1.limits = s.1.limits := by
  induction h with
  | refl => rfl
  | tail _ hstep ih =>
    rw [← ih]
    cases hstep <;> rfl

end Runs

theorem Recalls.pending_eq (h : o.Recalls q) {run : Run} (hrun : o.run = some run) :
    o.pending (ofList q) = 2 * (q.length - o.start) + 1 := by
  have hisRun := (h.run run hrun).2
  rw [pending, hrun, Columns.size_ofList, start_run hrun]
  dsimp only
  rw [if_pos (hisRun.whole.trans hisRun.within)]

theorem Recalls.exists_close (h : o.Recalls q) (hend : o.resume = q.length) {run : Run} (hrun : o.run = some run) :
    ∃ q' n, Step (o, q) ({ limits := o.limits, resume := n }, q') ∧ q'.length - n < q.length - o.start ∧
      run.pattern.batch o.limits (ofList q) run.first q.length = .ok ⟨ofList q', n⟩ := by
  obtain ⟨b, start, next, form, hb, hg⟩ := Pattern.batch_gives h.valid (h.run run hrun).2
  have hno : ¬ (run.pattern.TagFits q run.first o.resume ∧ run.pattern.agrees q run.first o.resume) :=
    fun hfits ↦ absurd (lt_of_tagFits hfits.1) (by omega)
  refine ⟨_, _, .close hrun hno hb hg, ?_, ?_⟩
  · rw [start_run hrun]
    exact hg.rest_lt h.within
  · rw [← hend, hb, hg.batching]

theorem settle_some {run : Run} {b : Batching} {s : Optimizer × Columns} (hrun : o.run = some run)
    (hb : run.pattern.batch o.limits c run.first c.size = .ok b)
    (hs : scan { limits := o.limits, resume := b.resume } b.columns = .ok s) (hp : s.1.pending s.2 < o.pending c) :
    o.settle c = s.1.settle s.2 := by
  rw [settle]
  split
  · rename_i run' hrun'
    obtain rfl : run = run' := Option.some.inj (hrun.symm.trans hrun')
    rw [hb, ok_bind, hs, ok_bind, if_pos hp]
  · rename_i hrun'
    cases hrun.symm.trans hrun'

theorem settle_none (hrun : o.run = none) : o.settle c = .ok (o, c) := by
  rw [settle]
  split
  · rename_i run' hrun'
    cases hrun.symm.trans hrun'
  · rfl

theorem settle_ok (s : Optimizer × List Instruction) (hs : s.1.Recalls s.2) (hend : s.1.resume = s.2.length) :
    ∃ s', Relation.ReflTransGen Step s s' ∧ s'.1.resume = s'.2.length ∧ s'.1.run = none ∧
      s.1.settle (ofList s.2) = .ok (s'.1, ofList s'.2) := by
  cases hrun : s.1.run with
  | none => exact ⟨s, .refl, hend, hrun, settle_none hrun⟩
  | some run =>
    obtain ⟨q₁, n, hstep, hlt, hb⟩ := hs.exists_close hend hrun
    have h₁ := hstep.recalls hs
    obtain ⟨s₂, hsteps, hend₂, hscan⟩ := scan_ok _ h₁
    have h₂ := recalls_of_steps hsteps h₁
    have hrest := rest_le_of_steps hsteps h₁
    have hpending : s₂.1.pending (ofList s₂.2) < s.1.pending (ofList s.2) := by
      rw [hs.pending_eq hrun]
      have hstart : Optimizer.start { limits := s.1.limits, resume := n } = n := rfl
      dsimp only at hrest
      rw [hstart] at hrest
      cases hrun₂ : s₂.1.run with
      | none =>
        rw [pending, hrun₂]
        exact Nat.succ_pos _
      | some run₂ =>
        rw [h₂.pending_eq hrun₂]
        omega
    obtain ⟨s', hsteps', hend', hnone, hsettle⟩ := settle_ok s₂ h₂ hend₂
    refine ⟨s', (Relation.ReflTransGen.head hstep hsteps).trans hsteps', hend', hnone, ?_⟩
    rw [← Columns.size_ofList] at hb
    rw [settle_some hrun hb hscan hpending, hsettle]
termination_by s.1.pending (ofList s.2)

theorem Recalls.scanLast_eq (h : o.Recalls q) : o.scanLast (ofList q) = o.scan (ofList q) := by
  rw [scanLast]
  split
  · rename_i hskip
    simp only [Bool.and_eq_true, Bool.not_eq_true', decide_eq_true_eq, isMatching, Bool.or_eq_false_iff,
      Option.isSome_eq_false_iff, Option.isNone_iff_eq_none, Bool.not_eq_false', LeadIn.isRoot] at hskip
    obtain ⟨⟨⟨hrun, hroot⟩, hsize⟩, hbegins⟩ := hskip
    rw [Columns.size_ofList] at hsize
    obtain ⟨tag, htag⟩ : ∃ tag, q[o.resume]?.map (·.tag) = some tag :=
      ⟨_, by rw [List.getElem?_eq_getElem (by omega)]; rfl⟩
    have hback : (ofList q).tags.back? = some tag := by
      rw [Columns.ofList, List.back?_toArray, List.getLast?_eq_getElem?, List.length_map, ← hsize, Nat.add_sub_cancel,
        List.getElem?_map, htag]
    have hleadIn := h.leadIn.root hroot
    have hmiss : o.leadIn.read tag = .miss := by
      rw [hback] at hbegins
      rw [hleadIn]
      exact LeadIn.read_root_of_not_begins (by simpa using hbegins)
    -- The scan would look at one instruction, whose tag begins nothing, and stop.
    have hnext : { o with resume := q.length } = { o with leadIn := .root, resume := o.resume + 1 } := by
      rw [hsize, ← hleadIn]
    rw [scan_none hrun htag, hmiss, Columns.size_ofList]
    dsimp only
    rw [hnext, scan_end hsize]
  · rfl

/-- What a state of rest is: scanning is at the end of the queue, and what is remembered is true of it. -/
structure AtEnd (s : Optimizer × List Instruction) : Prop where
  recalls : s.1.Recalls s.2
  resume : s.1.resume = s.2.length

theorem atEnd_fresh {l : Limits} (hl : l.Valid) : AtEnd ({ limits := l }, []) := ⟨recalls_fresh hl (Nat.zero_le _), rfl⟩

variable {s : Optimizer × List Instruction}

theorem AtEnd.push (h : AtEnd s) (i : Instruction) :
    ∃ s', Relation.ReflTransGen Step (s.1, s.2 ++ [i]) s' ∧ AtEnd s' ∧
      s.1.scanLast ((ofList s.2).push i.tag i.args) = .ok (s'.1, ofList s'.2) := by
  have hrecalls := h.recalls.append [i]
  obtain ⟨s', hsteps, hend, hscan⟩ := scan_ok (s.1, s.2 ++ [i]) hrecalls
  refine ⟨s', hsteps, ⟨recalls_of_steps hsteps hrecalls, hend⟩, ?_⟩
  rw [Columns.push_ofList, hrecalls.scanLast_eq, hscan]

theorem AtEnd.settle (h : AtEnd s) :
    ∃ s', Relation.ReflTransGen Step s s' ∧ AtEnd s' ∧ s'.1.run = none ∧
      s.1.settle (ofList s.2) = .ok (s'.1, ofList s'.2) := by
  obtain ⟨s', hsteps, hend, hrun, hsettle⟩ := settle_ok s h.recalls h.resume
  exact ⟨s', hsteps, ⟨recalls_of_steps hsteps h.recalls, hend⟩, hrun, hsettle⟩

end Optimizer

end DisplayList
