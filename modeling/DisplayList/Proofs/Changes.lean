import DisplayList.Proofs.Preservation

namespace DisplayList

open Columns (ofList)
open Relation (ReflTransGen)

/-- What may happen to a queue: an instruction comes to it, a run gives way to another form of it, or all is taken. -/
inductive QueueChange where
  | appended (i : Instruction)
  | rewritten (run form : List Instruction)
  | delivered (chunk : List Instruction)

namespace QueueChange

def instruction? : QueueChange → Option Instruction
  | appended i => some i
  | _ => none

def replaced : QueueChange → Nat
  | rewritten run _ => run.length
  | _ => 0

def inserted : QueueChange → Nat
  | rewritten _ form => form.length
  | _ => 0

def sent : QueueChange → Nat
  | delivered chunk => chunk.length
  | _ => 0

def IsRewrite : QueueChange → Prop
  | rewritten _ _ => True
  | _ => False

/-- Runs give way only in a queue that is batched, and only as the limits allow. -/
inductive Makes (batching : Option Limits) : QueueChange → List Instruction → List Instruction → Prop
  | append (q : List Instruction) (i : Instruction) : Makes batching (.appended i) q (q ++ [i])
  | rewrite {l : Limits} {run form : List Instruction} (pre post : List Instruction) (batches : batching = some l)
    (changed : run ≠ form) (allowed : Rewrite l run form) :
    Makes batching (.rewritten run form) (pre ++ run ++ post) (pre ++ form ++ post)
  | deliver (q : List Instruction) : Makes batching (.delivered q) q []

end QueueChange

inductive QueueChanges (batching : Option Limits) : List Instruction → List QueueChange → List Instruction → Prop
  | refl (q : List Instruction) : QueueChanges batching q [] q
  | step {q q' q'' : List Instruction} {c : QueueChange} {cs : List QueueChange} (first : c.Makes batching q q')
    (rest : QueueChanges batching q' cs q'') : QueueChanges batching q (c :: cs) q''

/-- How much shorter than its run a form is. Groups of four become one instruction. Of a text that is joined to the one
before it three instructions are lost, and a text before the run may be the one that the first is joined to. -/
inductive Shortens (l : Limits) (run form : List Instruction) : Prop
  | retagged (same : form.length = run.length)
  | batched (what : Batched) (least most n : Nat) (kind : (what, least, most) ∈ l.ranges) (pictures : what ≠ .glyphRuns)
    (bounds : least ≤ n ∧ n ≤ most) (groups : run.length = 4 * n) (one : form.length = 1)
  | joined (n joints : Nat) (bounds : l.minGlyphRuns ≤ n ∧ n ≤ l.maxGlyphRuns) (count : joints + 1 = n ∨ joints = n)
    (lost : run.length = form.length + 3 * joints)

variable {batching : Option Limits} {l : Limits} {q q' q'' run form s t : List Instruction} {c : QueueChange}
  {cs cs' : List QueueChange}

theorem QueueChanges.append (h : QueueChanges batching q cs q') (h' : QueueChanges batching q' cs' q'') :
    QueueChanges batching q (cs ++ cs') q'' := by
  induction h with
  | refl => exact h'
  | step first _ ih => exact .step first (ih h')

theorem QueueChanges.single (h : c.Makes batching q q') : QueueChanges batching q [c] q' := .step h (.refl q')

section Counting

theorem QueueChange.Makes.length_eq (h : c.Makes batching q q') :
    q'.length + c.sent + c.replaced = q.length + c.instruction?.toList.length + c.inserted := by
  cases h with
  | append q i => simp [sent, replaced, inserted, instruction?]
  | rewrite pre post =>
    simp only [sent, replaced, inserted, instruction?, List.length_append, Option.toList_none, List.length_nil]
    omega
  | deliver q => simp [sent, replaced, inserted, instruction?]

theorem length_filterMap_cons (c : QueueChange) (cs : List QueueChange) :
    ((c :: cs).filterMap QueueChange.instruction?).length =
      c.instruction?.toList.length + (cs.filterMap QueueChange.instruction?).length := by
  cases c with
  | appended i => exact Nat.add_comm _ 1
  | rewritten | delivered => exact (Nat.zero_add _).symm

/-- What came to the queue and what forms put in is what is in it, was delivered, or gave way. -/
theorem QueueChanges.length_eq (h : QueueChanges batching q cs q') :
    q'.length + (cs.map QueueChange.sent).sum + (cs.map QueueChange.replaced).sum =
      q.length + (cs.filterMap QueueChange.instruction?).length + (cs.map QueueChange.inserted).sum := by
  induction h with
  | refl => rfl
  | step first _ ih =>
    have hfirst := first.length_eq
    rw [length_filterMap_cons]
    simp only [List.map_cons, List.sum_cons]
    omega

theorem shortens_quartets (what : Batched) {least most : Nat} (kind : (what, least, most) ∈ l.ranges)
    (pictures : what ≠ .glyphRuns) {gs : List Quartet} (bounds : least ≤ gs.length ∧ gs.length ≤ most) (paint : Tag)
    (i : Instruction) : Shortens l (gs.flatMap (Quartet.instructions paint)) [i] :=
  .batched what least most gs.length kind pictures bounds (Pattern.length_instructions _ _) rfl

theorem Rewrite.shortens (h : Rewrite l run form) : Shortens l run form := by
  cases h with
  | same | solidMask => exact .retagged rfl
  | imageRepeat g gs least most =>
    exact shortens_quartets .images (by simp [Limits.ranges]) (by decide) ⟨least, most⟩ _ _
  | maskRepeat mask g gs least most =>
    exact shortens_quartets .sameImageMasks (by simp [Limits.ranges]) (by decide) ⟨least, most⟩ _ _
  | maskGroup gs masks least most =>
    exact shortens_quartets .imageMasks (by simp [Limits.ranges]) (by decide) ⟨least, most⟩ _ _
  | inlineGroup gs images atlas least most =>
    exact shortens_quartets .inlineImages (by simp [Limits.ranges]) (by decide) ⟨least, most⟩ _ _
  | text w ws least most =>
    refine .joined (w :: ws).length ws.length ⟨least, most⟩ (.inl rfl) ?_
    rw [w.length_texts, w.length_merged]
    omega
  | joinedText w₀ w ws least most =>
    refine .joined (w :: ws).length (w :: ws).length ⟨least, most⟩ (.inr rfl) ?_
    rw [List.length_tail, List.length_tail, w₀.length_texts, w₀.length_merged]
    simp only [List.length_cons]
    omega

theorem Rewrite.form_ne_nil (h : Rewrite l run form) : form ≠ [] := by
  cases h with
  | same | solidMask | imageRepeat | maskRepeat | maskGroup | inlineGroup => exact List.cons_ne_nil _ _
  | text w ws =>
    apply List.ne_nil_of_length_pos
    rw [w.length_merged]
    omega
  | joinedText w₀ w ws =>
    apply List.ne_nil_of_length_pos
    rw [List.length_tail, w₀.length_merged]
    omega

theorem QueueChanges.allowed (h : QueueChanges batching q cs q') (hmem : .rewritten run form ∈ cs) :
    ∃ l, batching = some l ∧ Rewrite l run form := by
  induction h with
  | refl => cases hmem
  | step first _ ih =>
    obtain rfl | hmem := List.mem_cons.1 hmem
    · cases first with
      | rewrite pre post batches _ allowed => exact ⟨_, batches, allowed⟩
    · exact ih hmem

theorem sum_counts_eq_zero {count : QueueChange → Nat} (h : ∀ c ∈ cs, count c = 0) : (cs.map count).sum = 0 :=
  List.sum_eq_zero_iff_forall_eq_nat.2 (List.forall_mem_map.2 h)

theorem QueueChanges.keeps_runs (h : QueueChanges none q cs q') (hc : c ∈ cs) : c.replaced = 0 ∧ c.inserted = 0 := by
  cases c with
  | rewritten run form =>
    obtain ⟨l, hbatches, -⟩ := h.allowed hc
    cases hbatches
  | appended | delivered => exact ⟨rfl, rfl⟩

end Counting

section Rewriting

def Rewrites (batching : Option Limits) (q : List Instruction) (cs : List QueueChange) (q' : List Instruction) : Prop :=
  QueueChanges batching q cs q' ∧ ∀ c ∈ cs, c.IsRewrite

theorem Rewrites.refl (batching : Option Limits) (q : List Instruction) : Rewrites batching q [] q :=
  ⟨.refl q, nofun⟩

theorem Rewrites.append (h : Rewrites batching q cs q') (h' : Rewrites batching q' cs' q'') :
    Rewrites batching q (cs ++ cs') q'' :=
  ⟨h.1.append h'.1, List.forall_mem_append.2 ⟨h.2, h'.2⟩⟩

theorem Rewrites.instructions_eq_nil (h : Rewrites batching q cs q') : cs.filterMap QueueChange.instruction? = [] := by
  apply List.filterMap_eq_nil_iff.2
  intro c hc
  cases c with
  | rewritten => rfl
  | appended | delivered => exact absurd (h.2 _ hc) id

theorem Rewrites.sent_eq_zero (h : Rewrites batching q cs q') : (cs.map QueueChange.sent).sum = 0 := by
  apply sum_counts_eq_zero
  intro c hc
  cases c with
  | rewritten => rfl
  | appended | delivered => exact absurd (h.2 _ hc) id

theorem rewrites_of_rewrite (h : Rewrite l run form) (pre post : List Instruction) :
    ∃ cs, Rewrites (some l) (pre ++ run ++ post) cs (pre ++ form ++ post) := by
  by_cases heq : run = form
  · subst heq
    exact ⟨[], .refl _ _⟩
  · exact ⟨[.rewritten run form], .single (.rewrite pre post rfl heq h), List.forall_mem_singleton.2 trivial⟩

theorem Draws.rewrites (h : Draws l s t) (pre post : List Instruction) :
    ∃ cs, Rewrites (some l) (pre ++ s ++ post) cs (pre ++ t ++ post) := by
  obtain ⟨cuts, hcuts, rfl, rfl⟩ := h
  induction cuts generalizing pre with
  | nil => exact ⟨[], .refl _ _⟩
  | cons cut cuts ih =>
    obtain ⟨cs, hfirst⟩ := rewrites_of_rewrite (hcuts cut List.mem_cons_self).2 pre (cuts.flatMap (·.1) ++ post)
    obtain ⟨cs', hrest⟩ := ih (pre ++ cut.2) fun c hc ↦ hcuts c (List.mem_cons_of_mem cut hc)
    refine ⟨cs ++ cs', ?_⟩
    simp only [List.flatMap_cons, List.append_assoc] at hfirst hrest ⊢
    exact hfirst.append hrest

namespace Optimizer

variable {s s' : Optimizer × List Instruction}

theorem Step.rewrites (h : Step s s') : ∃ cs, Rewrites (some s.1.limits) s.2 cs s'.2 := by
  obtain ⟨hq, -⟩ | ⟨b, start, next, form, hgives, hq, -⟩ := h.start_le
  · rw [hq]
    exact ⟨[], .refl _ _⟩
  · have hprogress := hgives.progress
    have hjoins := hgives.joins
    obtain ⟨cs, hcs⟩ := hgives.draws.rewrites (s.2.take start) (s.2.drop next)
    rw [take_append_stretch (by omega), List.take_append_drop] at hcs
    rw [hq]
    exact ⟨cs, hcs⟩

theorem rewrites_of_steps (h : ReflTransGen Step s s') : ∃ cs, Rewrites (some s.1.limits) s.2 cs s'.2 := by
  induction h with
  | refl => exact ⟨[], .refl _ _⟩
  | tail hsteps hstep ih =>
    obtain ⟨cs, hcs⟩ := ih
    obtain ⟨cs', hcs'⟩ := hstep.rewrites
    rw [limits_of_steps hsteps] at hcs'
    exact ⟨cs ++ cs', hcs.append hcs'⟩

end Optimizer

end Rewriting

end DisplayList
