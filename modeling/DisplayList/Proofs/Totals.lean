import DisplayList.Proofs.Changes
import DisplayList.Proofs.Events
import Mathlib.Data.List.Permutation

namespace DisplayList.Builder

open Columns (ofList)
open Optimizer (AtEnd)

def queued (b : Builder) (i : Instruction) : Builder :=
  { b.enqueue i.tag i.args with weight := (b.enqueue i.tag i.args).weight + 1 }

/-- All of the queue was looked at if the list batches. -/
def IsScanned (batching : Option Limits) (b : Builder) (q : List Instruction) : Prop :=
  b.queue = ofList q ∧ match batching with
    | none => b.optimizer = none
    | some l => ∃ o : Optimizer, b.optimizer = some o ∧ o.limits = l ∧ AtEnd (o, q)

/-- Since the list was `b₀`, these changes were made to its queue, in which these instructions came to it. -/
structure Accounts (batching : Option Limits) (b₀ b : Builder) (written : List Instruction) (cs : List QueueChange) :
    Prop where
  changes : ∃ q, b.IsScanned batching q ∧ QueueChanges batching b₀.queue.toList cs q
  written : cs.filterMap QueueChange.instruction? = written
  flushed : b.flushed = b₀.flushed + (cs.map QueueChange.sent).sum

/-- What a call does to the total length of a list, told by the changes that it makes to the queue. -/
structure KeepsTotal (options : BuilderOptions) (sink : Option Sink) (b : Builder) (c : Call) (cs : List QueueChange) :
    Prop where
  changes : QueueChanges (batching options sink) b.queue.toList cs (c.effect b).queue.toList
  written : cs.filterMap QueueChange.instruction? = c.written b
  flushed : (c.effect b).flushed = b.flushed + (cs.map QueueChange.sent).sum
  balance : (c.effect b).totalLength + (cs.map QueueChange.replaced).sum =
    b.totalLength + (c.written b).length + (cs.map QueueChange.inserted).sum
  shortens : ∀ run form, .rewritten run form ∈ cs → form ≠ [] ∧ Shortens options.limits run form
  plain : batching options sink = none → (c.effect b).totalLength = b.totalLength + (c.written b).length

variable {batching : Option Limits} {b b₀ : Builder} {q written : List Instruction} {cs : List QueueChange}
  {i : Instruction} {s : Sink}

theorem enqueue_none (h : b.optimizer = none) (tag : Tag) (args : List Arg) :
    b.enqueue tag args = { b with queue := b.queue.push tag args } := by rw [enqueue, h]

section Scanning

theorem isScanned_create (options : BuilderOptions) (sink : Option Sink) (hl : options.limits.violation? = none) :
    (create options sink).IsScanned (Builder.batching options sink) [] := by
  refine ⟨rfl, ?_⟩
  by_cases hbatches : sink.isSome ∧ options.intent ≠ .oplist
  · rw [Builder.batching, create, if_pos hbatches, if_pos hbatches]
    exact ⟨_, rfl, rfl, Optimizer.atEnd_fresh (Limits.violation?_eq_none_iff.1 hl)⟩
  · rw [Builder.batching, create, if_neg hbatches, if_neg hbatches]

theorem IsScanned.queued (h : b.IsScanned batching q) (i : Instruction) :
    ∃ cs q', Rewrites batching (q ++ [i]) cs q' ∧ (b.queued i).IsScanned batching q' := by
  obtain ⟨hq, hscanned⟩ := h
  cases batching with
  | none =>
    refine ⟨[], q ++ [i], .refl _ _, ?_⟩
    rw [Builder.queued, enqueue_none hscanned, hq, Columns.push_ofList]
    exact ⟨rfl, hscanned⟩
  | some l =>
    obtain ⟨o, ho, rfl, hend⟩ := hscanned
    obtain ⟨s', hsteps, hend', hscan⟩ := hend.push i
    obtain ⟨cs, hcs⟩ := Optimizer.rewrites_of_steps hsteps
    refine ⟨cs, s'.2, hcs, ?_⟩
    dsimp only at hscan
    rw [Builder.queued, enqueue, ho, hq]
    dsimp only
    rw [Optimizer.push, hscan]
    exact ⟨rfl, s'.1, rfl, Optimizer.limits_of_steps hsteps, hend'⟩

theorem IsScanned.settle (h : b.IsScanned batching q) :
    ∃ cs q', Rewrites batching q cs q' ∧ b.settle.IsScanned batching q' := by
  obtain ⟨hq, hscanned⟩ := h
  cases batching with
  | none =>
    refine ⟨[], q, .refl _ _, ?_⟩
    have hsettle : b.settle = b := by rw [Builder.settle, hscanned]
    rw [hsettle]
    exact ⟨hq, hscanned⟩
  | some l =>
    obtain ⟨o, ho, rfl, hend⟩ := hscanned
    obtain ⟨s', hsteps, hend', -, hsettle⟩ := hend.settle
    obtain ⟨cs, hcs⟩ := Optimizer.rewrites_of_steps hsteps
    refine ⟨cs, s'.2, hcs, ?_⟩
    dsimp only at hsettle
    rw [Builder.settle, ho, hq]
    dsimp only
    rw [Optimizer.flush, hsettle]
    exact ⟨rfl, s'.1, rfl, Optimizer.limits_of_steps hsteps, hend'⟩

theorem IsScanned.deliver (h : b.settle.IsScanned batching q) (s : Sink) (isLast : Bool) :
    (b.deliver s isLast).IsScanned batching [] := by
  obtain ⟨-, hscanned⟩ := h
  refine ⟨rfl, ?_⟩
  cases batching with
  | none =>
    change b.settle.optimizer.map Optimizer.reset = none
    rw [hscanned]
    rfl
  | some l =>
    obtain ⟨o, ho, rfl, hend⟩ := hscanned
    refine ⟨o.reset, ?_, rfl, Optimizer.atEnd_fresh hend.recalls.valid⟩
    change b.settle.optimizer.map Optimizer.reset = some o.reset
    rw [ho]
    rfl

end Scanning

section Accounting

theorem Accounts.start (h : b.IsScanned batching q) : Accounts batching b b [] [] := by
  refine ⟨⟨q, h, ?_⟩, rfl, rfl⟩
  rw [h.1, Columns.toList_ofList]
  exact .refl q

theorem Accounts.queued (h : Accounts batching b₀ b written cs) (i : Instruction) :
    ∃ cs', Accounts batching b₀ (b.queued i) (written ++ [i]) cs' := by
  obtain ⟨⟨q, hscanned, hchanges⟩, rfl, hflushed⟩ := h
  obtain ⟨cs', q', hrewrites, hscanned'⟩ := hscanned.queued i
  have happended : QueueChanges batching q [.appended i] (q ++ [i]) := .single (.append q i)
  refine ⟨cs ++ ([.appended i] ++ cs'), ⟨q', hscanned', hchanges.append (happended.append hrewrites.1)⟩, ?_, ?_⟩
  · rw [List.filterMap_append, List.filterMap_append, hrewrites.instructions_eq_nil]
    rfl
  · have hkept : (b.queued i).flushed = b.flushed := flushed_enqueue b i.tag i.args
    rw [hkept, hflushed, List.map_append, List.sum_append, List.map_append, List.sum_append, hrewrites.sent_eq_zero]
    rfl

theorem Accounts.deliver (h : Accounts batching b₀ b written cs) (s : Sink) (isLast : Bool) :
    ∃ cs', Accounts batching b₀ (b.deliver s isLast) written cs' := by
  obtain ⟨⟨q, hscanned, hchanges⟩, rfl, hflushed⟩ := h
  obtain ⟨cs', q', hrewrites, hscanned'⟩ := hscanned.settle
  have htaken : QueueChanges batching q' [.delivered q'] [] := .single (.deliver q')
  refine ⟨cs ++ (cs' ++ [.delivered q']), ⟨[], hscanned'.deliver s isLast, hchanges.append (hrewrites.1.append htaken)⟩,
    ?_, ?_⟩
  · rw [List.filterMap_append, List.filterMap_append, hrewrites.instructions_eq_nil]
    exact List.append_nil _
  · have hsent : (b.deliver s isLast).flushed = b.settle.flushed + b.settle.queue.size := rfl
    rw [hsent, flushed_settle, hscanned'.1, Columns.size_ofList, hflushed, List.map_append, List.sum_append,
      List.map_append, List.sum_append, hrewrites.sent_eq_zero, Nat.zero_add, Nat.add_assoc]
    rfl

theorem Accounts.remember (h : Accounts batching b₀ b written cs) (ids : List String) :
    Accounts batching b₀ { b with dependencies := ids } written cs :=
  ⟨h.changes, h.written, h.flushed⟩

theorem Accounts.add (h : Accounts batching b₀ b written cs) (i : Instruction) :
    ∃ cs', Accounts batching b₀ (b.add i.tag i.args) (written ++ [i]) cs' := by
  obtain ⟨cs', hqueued⟩ := h.queued i
  cases hs : (b.queued i).sink with
  | none =>
    have hadd : b.add i.tag i.args = b.queued i := add_of_none hs
    rw [hadd]
    exact ⟨cs', hqueued⟩
  | some s =>
    have hadd : b.add i.tag i.args =
        if (b.queued i).chunking.isDue (b.queued i).weight i.tag then (b.queued i).deliver s false else b.queued i :=
      add_eq hs
    rw [hadd]
    split
    · exact hqueued.deliver s false
    · exact ⟨cs', hqueued⟩

theorem kept_accounts (batching : Option Limits) (b₀ : Builder) :
    Kept fun b es ↦ ∃ cs, Accounts batching b₀ b (instructionsIn es) cs where
  add ids tag args h := by
    obtain ⟨cs, h⟩ := h
    rw [instructionsIn_append]
    exact (h.remember ids).add ⟨tag, args⟩
  deliver isLast hs h := by
    obtain ⟨cs, h⟩ := h
    rw [instructionsIn_append]
    change ∃ cs, Accounts batching b₀ _ (_ ++ []) cs
    rw [List.append_nil]
    exact h.deliver _ isLast

theorem isScanned_calls (options : BuilderOptions) (sink : Option Sink) (hl : options.limits.violation? = none)
    (calls : List Call) :
    ∃ q, (calls.foldl Call.effect (create options sink)).IsScanned (Builder.batching options sink) q := by
  have hfresh := isScanned_create options sink hl
  obtain ⟨cs, h⟩ := @Kept.calls _ _ [] (kept_accounts _ (create options sink)) ⟨[], .start hfresh⟩ calls
  obtain ⟨q, hscanned, -⟩ := h.changes
  exact ⟨q, hscanned⟩

theorem exists_accounts_effect (h : b.IsScanned batching q) (c : Call) :
    ∃ cs, Accounts batching b (c.effect b) (c.written b) cs := by
  have heffect := @Kept.effect _ b [] (kept_accounts batching b) ⟨[], .start h⟩ c
  rwa [List.nil_append, instructionsIn_events] at heffect

theorem Accounts.totalLength_eq (h : Accounts batching b₀ b written cs) (hq : b₀.IsScanned batching q) :
    b.totalLength + (cs.map QueueChange.replaced).sum =
      b₀.totalLength + written.length + (cs.map QueueChange.inserted).sum := by
  obtain ⟨⟨q', hscanned, hchanges⟩, rfl, hflushed⟩ := h
  have hlength := hchanges.length_eq
  have hbefore : b₀.totalLength = b₀.flushed + q.length := by rw [totalLength, length, hq.1, Columns.size_ofList]
  have hafter : b.totalLength = b.flushed + q'.length := by rw [totalLength, length, hscanned.1, Columns.size_ofList]
  rw [hq.1, Columns.toList_ofList] at hlength
  omega

theorem Accounts.totalLength_of_plain (h : Accounts none b₀ b written cs) (hq : b₀.IsScanned none q) :
    b.totalLength = b₀.totalLength + written.length := by
  have htotal := h.totalLength_eq hq
  obtain ⟨⟨q', -, hchanges⟩, -, -⟩ := h
  rwa [sum_counts_eq_zero fun c hc ↦ (hchanges.keeps_runs hc).1, sum_counts_eq_zero fun c hc ↦ (hchanges.keeps_runs hc).2]
    at htotal

end Accounting

/-- A call adds to the total what it appends, and what it takes from it are the runs that gave way in the queue
meanwhile, less the forms that came in their place. -/
theorem totalLength_balances (options : BuilderOptions) (sink : Option Sink) (hl : options.limits.violation? = none)
    (calls : List Call) (c : Call) :
    ∃ cs, KeepsTotal options sink (calls.foldl Call.effect (create options sink)) c cs := by
  obtain ⟨q, hscanned⟩ := isScanned_calls options sink hl calls
  obtain ⟨cs, haccounts⟩ := exists_accounts_effect hscanned c
  have hbalance := haccounts.totalLength_eq hscanned
  obtain ⟨q', hscanned', hchanges⟩ := haccounts.changes
  refine ⟨cs, ?_, haccounts.written, haccounts.flushed, hbalance, ?_, ?_⟩
  · rwa [hscanned'.1, Columns.toList_ofList]
  · intro run form hmem
    obtain ⟨l, hbatches, hrewrite⟩ := hchanges.allowed hmem
    obtain ⟨-, hsame⟩ := Option.ite_none_right_eq_some.1 hbatches
    obtain rfl := Option.some.inj hsame
    exact ⟨hrewrite.form_ne_nil, hrewrite.shortens⟩
  · intro hplain
    rw [hplain] at haccounts hscanned
    exact haccounts.totalLength_of_plain hscanned

def texts : List Call :=
  (List.replicate 3 [.beginText, .setFont, .setTextMatrix, .showText, .endText]).flatten.map fun tag ↦ .add tag []

theorem totalLength_balances_texts :
    ({} : BuilderOptions).limits.violation? = none ∧
      ∃ cs, KeepsTotal {} (some (.record [])) (texts.foldl Call.effect (create {} (some (.record [])))) (.flush false)
        cs :=
  ⟨by decide, totalLength_balances {} _ (by decide) texts (.flush false)⟩

/-- A flush may leave a total that is less than it was. -/
theorem totalLength_may_fall :
    ¬ ∀ (options : BuilderOptions) (sink : Option Sink), options.limits.violation? = none →
      ∀ (cs : List Call) (c : Call), (cs.foldl Call.effect (create options sink)).totalLength ≤
        (c.effect (cs.foldl Call.effect (create options sink))).totalLength := by
  intro hle
  have hbefore : (texts.foldl Call.effect (create {} (some (.record [])))).totalLength = 15 := by cbv
  have hafter : ((Call.flush false).effect (texts.foldl Call.effect (create {} (some (.record []))))).totalLength = 9 :=
    by cbv
  have hfalse := hle {} (some (.record [])) (by decide) texts (.flush false)
  rw [hbefore, hafter] at hfalse
  omega

end DisplayList.Builder
