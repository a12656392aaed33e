import DisplayList.Proofs.Fates

namespace DisplayList

open Columns (ofList)
open Relation (ReflTransGen)

variable {l : Limits} {p p' : Pattern} {first first' stop stop' n m : Nat} {q q' is : List Instruction}
  {s s' t : List Instruction × Nat}

theorem Pattern.IsRun.stop_le_of_ends (h : p.IsRun q first stop)
    (hends : ¬ (p.TagFits q first stop ∧ p.agrees q first stop)) (h' : p.IsRun q first stop') : stop' ≤ stop := by
  have hwhole := h.whole
  by_contra hlt
  exact hends ⟨h'.tags stop (by omega) (by omega), h'.agrees stop hwhole (by omega)⟩

theorem Turn.first_le (h : Turn l p first stop s s') (h' : Turn l p' first' stop' s t) : first ≤ first' :=
  Nat.not_lt.1 fun hlt ↦ h.earliest p' first' h'.le hlt h'.run.opensAt

theorem Turn.unique (h : Turn l p first stop s s') (h' : Turn l p' first' stop' s t) : s' = t := by
  obtain rfl : first = first' := (h.first_le h').antisymm (h'.first_le h)
  have hstart : first < first + p.period := Nat.lt_add_of_pos_right p.period_pos
  obtain ⟨-, rfl⟩ := h.run.opensAt.group.eq_of_lt h'.run.opensAt.group le_rfl hstart
  obtain rfl : stop = stop' :=
    (h'.run.stop_le_of_ends h'.ends h.run).antisymm (h.run.stop_le_of_ends h.ends h'.run)
  obtain ⟨hq, hn⟩ := Pattern.eq_of_batch h.batch h'.batch
  exact Prod.ext hq hn

def AtRest (q : List Instruction) (n : Nat) : Prop := ∀ (p : Pattern) (i : Nat), n ≤ i → ¬ p.OpensAt q i

theorem AtRest.no_turn (hrest : AtRest s.1 s.2) : ¬ Turn l p first stop s s' := by
  intro h
  exact hrest p first h.le h.run.opensAt

/-- The turns from `s` on come to rest with the queue `q`. -/
def ComesTo (l : Limits) (s : List Instruction × Nat) (q : List Instruction) : Prop :=
  ∃ n, Turns l s (q, n) ∧ AtRest q n

theorem ComesTo.of_atRest (h : AtRest q n) : ComesTo l (q, n) q := ⟨n, .refl, h⟩

theorem ComesTo.of_turns (h : Turns l s s') (h' : ComesTo l s' q) : ComesTo l s q := by
  obtain ⟨n, hturns, hrest⟩ := h'
  exact ⟨n, h.trans hturns, hrest⟩

theorem Turns.eq_of_atRest (h : Turns l (q, n) s) (hrest : AtRest q n) : s = (q, n) := by
  obtain rfl | ⟨t, ⟨p, first, stop, hturn⟩, -⟩ := ReflTransGen.cases_head h
  · rfl
  · exact absurd hturn hrest.no_turn

theorem Turns.total (h : Turns l s s') (h' : Turns l s t) : Turns l s' t ∨ Turns l t s' := by
  have hunique : Relator.RightUnique fun s s' ↦ ∃ p first stop, Turn l p first stop s s' := by
    rintro s t t' ⟨p, first, stop, ht⟩ ⟨p', first', stop', ht'⟩
    exact ht.unique ht'
  exact ReflTransGen.total_of_right_unique hunique h h'

theorem ComesTo.after (h : ComesTo l s q) (h' : Turns l s s') : ComesTo l s' q := by
  obtain ⟨n, hturns, hrest⟩ := h
  obtain hrest' | hlater := h'.total hturns
  · exact ⟨n, hrest', hrest⟩
  · rw [hlater.eq_of_atRest hrest]
    exact .of_atRest hrest

theorem ComesTo.unique (h : ComesTo l s q) (h' : ComesTo l s q') : q = q' := by
  obtain ⟨n', hturns', hrest'⟩ := h'
  obtain ⟨n, hturns, -⟩ := h.after hturns'
  exact (Prod.mk.inj (hturns.eq_of_atRest hrest')).1

theorem Turn.of_later (hnm : n ≤ m) (hno : ∀ (p : Pattern) (i : Nat), n ≤ i → i < m → ¬ p.OpensAt q i)
    (h : Turn l p first stop (q, m) s) : Turn l p first stop (q, n) s := by
  refine ⟨hnm.trans h.le, fun p' i hi hlt ↦ ?_, h.run, h.ends, h.batch⟩
  obtain him | hmi := Nat.lt_or_ge i m
  · exact hno p' i hi him
  · exact h.earliest p' i hmi hlt

theorem ComesTo.of_later (hnm : n ≤ m) (hno : ∀ (p : Pattern) (i : Nat), n ≤ i → i < m → ¬ p.OpensAt q i)
    (h : ComesTo l (q, m) q') : ComesTo l (q, n) q' := by
  obtain ⟨n', hturns, hrest⟩ := h
  obtain heq | ⟨s, ⟨p, first, stop, hturn⟩, hturns⟩ := ReflTransGen.cases_head hturns
  · obtain ⟨rfl, rfl⟩ := Prod.mk.inj heq
    refine .of_atRest fun p i hi ↦ ?_
    obtain him | hmi := Nat.lt_or_ge i m
    · exact hno p i hi him
    · exact hrest p i hmi
  · exact ⟨n', hturns.head ⟨p, first, stop, hturn.of_later hnm hno⟩, hrest⟩

theorem Turn.to_end (hrun : p.IsRun q first q.length)
    (hbatch : p.batch l (ofList q) first q.length = .ok ⟨ofList q', n⟩) :
    Turn l p first q.length (q, first) (q', n) := by
  refine ⟨le_rfl, fun p i hi hlt ↦ absurd hlt (Nat.not_lt.2 hi), hrun, fun hfits ↦ ?_, hbatch⟩
  exact absurd (Optimizer.lt_of_tagFits hfits.1) (Nat.lt_irrefl _)

theorem ComesTo.of_run (hrun : p.IsRun q 0 q.length) (hbatch : p.batch l (ofList q) 0 q.length = .ok ⟨ofList q', n⟩)
    (hrest : AtRest q' n) : ComesTo l (q, 0) q' :=
  ⟨n, .single ⟨p, 0, q.length, .to_end hrun hbatch⟩, hrest⟩

theorem Turn.drawsUpTo (hl : l.Valid) (h : Turn l p first stop s s') (hd : DrawsUpTo l is s.1 s.2) :
    DrawsUpTo l is s'.1 s'.2 := by
  obtain ⟨b, start, next, form, hb, hgives⟩ := Pattern.batch_gives hl h.run
  have hprogress := hgives.progress
  have hjoins := hgives.joins
  have hq := h.run.within
  have hwithin := hgives.within
  rw [hgives.batching] at hb
  obtain ⟨hqueue, hresume⟩ := Pattern.eq_of_batch h.batch hb
  rw [hqueue, hresume]
  exact ((hd.mono h.le).of_joins hjoins).replace (by omega) (by omega) hgives.draws

theorem drawsUpTo_zero (l : Limits) (is : List Instruction) : DrawsUpTo l is is 0 := ⟨[], rfl, .nil⟩

theorem Turns.drawsUpTo (hl : l.Valid) (h : Turns l s s') (hd : DrawsUpTo l is s.1 s.2) : DrawsUpTo l is s'.1 s'.2 := by
  induction h with
  | refl => exact hd
  | tail _ hturn ih =>
    obtain ⟨p, first, stop, hturn⟩ := hturn
    exact hturn.drawsUpTo hl ih

namespace Optimizer

theorem exists_comesTo (hl : l.violation? = none) (is : List Instruction) :
    ∃ q, optimized l is = ofList q ∧ ComesTo l (is, 0) q := by
  obtain ⟨q, n, hq, hturns, hrest⟩ := exists_turns hl is
  exact ⟨q, hq, n, hturns, hrest⟩

/-- The queue that comes out is the one that the turns come to. -/
theorem optimized_eq_iff (hl : l.violation? = none) : optimized l is = ofList q ↔ ComesTo l (is, 0) q := by
  obtain ⟨q', hq', hcomes⟩ := exists_comesTo hl is
  rw [hq']
  constructor
  · intro heq
    rwa [← Columns.ofList_injective heq]
  · intro hcomes'
    rw [hcomes.unique hcomes']

end Optimizer

end DisplayList
