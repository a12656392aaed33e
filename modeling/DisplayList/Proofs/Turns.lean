import DisplayList.Proofs.Recognition
import DisplayList.Proofs.Schedule

/-!
The runs that a scan deals with.

Groups do not overlap, so the group that is recognised first is the one that stands first. A scan therefore goes from
run to run: each begins with the first group that can open one, is followed as far as it goes, and is batched. Where
there is no more such group the scan comes to its end.
-/

namespace DisplayList

open Columns (ofList)
open Relation (ReflTransGen)

namespace Pattern

variable {p p' : Pattern} {q : List Instruction} {first stop i j n m : Nat}

def GroupAt (p : Pattern) (q : List Instruction) (i : Nat) : Prop :=
  ∀ k < p.period, q[i + k]?.map (·.tag) = p.group[k]?

theorem groupAt_iff_tagFits : p.GroupAt q i ↔ ∀ j, i ≤ j → j < i + p.period → p.TagFits q i j := by
  constructor
  · intro h j hij hj
    have hk := h (j - i) (by omega)
    rwa [Nat.add_sub_cancel' hij, ← Nat.mod_eq_of_lt (show j - i < p.period by omega)] at hk
  · intro h k hk
    have hj := h (i + k) (Nat.le_add_right i k) (by omega)
    rwa [TagFits, Nat.add_sub_cancel_left, Nat.mod_eq_of_lt hk] at hj

theorem GroupAt.within (h : p.GroupAt q i) : i + p.period ≤ q.length := by
  have hpos := p.period_pos
  have hlast := h (p.period - 1) (by omega)
  rw [List.getElem?_eq_getElem (show p.period - 1 < p.group.length by rw [← period]; omega)] at hlast
  have := Optimizer.lt_of_tag hlast
  omega

theorem GroupAt.eq_of_begins (h : p.GroupAt q i) (hij : i ≤ j) (hj : j < i + p.period)
    (ht : q[j]?.map (·.tag) = p'.group[0]?) : i = j := by
  have hk := h (j - i) (by omega)
  rw [Nat.add_sub_cancel' hij, ht] at hk
  have := eq_zero_of_begins (by omega) hk.symm
  omega

/-- Two groups that overlap are one. -/
theorem GroupAt.eq_of_lt (h : p.GroupAt q i) (h' : p'.GroupAt q j) (hij : i ≤ j) (hj : j < i + p.period) :
    i = j ∧ p = p' := by
  have hbegin' := h' 0 p'.period_pos
  obtain rfl := h.eq_of_begins hij hj hbegin'
  have hbegin := h 0 p.period_pos
  have hperiod : p.period = p'.period := period_eq_of_begins (hbegin.symm.trans hbegin')
  refine ⟨rfl, eq_of_group_eq (List.ext_getElem? fun k ↦ ?_)⟩
  by_cases hk : k < p.period
  · rw [← h k hk, ← h' k (hperiod ▸ hk)]
  · have hk' : ¬ k < p'.period := by rwa [← hperiod]
    rw [List.getElem?_eq_none (Nat.not_lt.1 hk), List.getElem?_eq_none (Nat.not_lt.1 hk')]

theorem map_stretch_getElem? (q : List Instruction) (i stop : Nat) {k : Nat} (hk : i + k < stop) :
    ((stretch q i stop).map (·.tag))[k]? = q[i + k]?.map (·.tag) := by
  rw [stretch, List.getElem?_map, List.getElem?_take_of_lt (by omega), List.getElem?_drop]

theorem groupAt_iff_map_stretch (hq : i + p.period ≤ q.length) :
    p.GroupAt q i ↔ (stretch q i (i + p.period)).map (·.tag) = p.group := by
  have hlength : ((stretch q i (i + p.period)).map (·.tag)).length = p.period := by
    rw [List.length_map, length_stretch hq, Nat.add_sub_cancel_left]
  constructor
  · intro h
    refine List.ext_getElem? fun k ↦ ?_
    by_cases hk : k < p.period
    · rw [map_stretch_getElem? q i _ (by omega), h k hk]
    · rw [List.getElem?_eq_none (hlength.trans_le (Nat.not_lt.1 hk)), List.getElem?_eq_none (Nat.not_lt.1 hk)]
  · intro h k hk
    rw [← map_stretch_getElem? q i (i + p.period) (by omega), h]

theorem suffix_iff_groupAt (hi : n ≤ i) (hstop : i + p.period = stop) (hq : stop ≤ q.length) :
    p.group <:+ (stretch q n stop).map (·.tag) ↔ p.GroupAt q i := by
  subst hstop
  have hlength : ((stretch q i (i + p.period)).map (·.tag)).length = p.group.length := by
    rw [List.length_map, length_stretch hq, Nat.add_sub_cancel_left, period]
  rw [← stretch_append_stretch hi (Nat.le_add_right _ _), List.map_append, groupAt_iff_map_stretch hq]
  constructor
  · intro h
    exact ((List.suffix_of_suffix_length_le h (List.suffix_append _ _) hlength.ge).eq_of_length hlength.symm).symm
  · intro h
    rw [h]
    exact List.suffix_append _ _

structure OpensAt (p : Pattern) (q : List Instruction) (i : Nat) : Prop where
  group : p.GroupAt q i
  opens : p.opens q i

theorem IsRun.opensAt (h : p.IsRun q first stop) : p.OpensAt q first := by
  have hwhole := h.whole
  exact ⟨groupAt_iff_tagFits.2 fun j hj hj' ↦ h.tags j hj (by omega), h.opens⟩

end Pattern

/-- A run is dealt with, the first one from `n` on, which goes from `first` to `stop`. -/
structure Turn (l : Limits) (p : Pattern) (first stop : Nat) (s s' : List Instruction × Nat) : Prop where
  le : s.2 ≤ first
  earliest : ∀ (p' : Pattern) (i : Nat), s.2 ≤ i → i < first → ¬ p'.OpensAt s.1 i
  run : p.IsRun s.1 first stop
  ends : ¬ (p.TagFits s.1 first stop ∧ p.agrees s.1 first stop)
  batch : p.batch l (ofList s.1) first stop = .ok ⟨ofList s'.1, s'.2⟩

def Turns (l : Limits) : List Instruction × Nat → List Instruction × Nat → Prop :=
  ReflTransGen fun s s' ↦ ∃ p first stop, Turn l p first stop s s'

namespace Optimizer

variable {l : Limits} {o : Optimizer} {q : List Instruction} {n : Nat} {s s' : Optimizer × List Instruction}

/-- Nothing that was looked at since `n` opens a run, and of what comes last it is known how much of a group it is. -/
structure LooksFrom (o : Optimizer) (q : List Instruction) (n : Nat) : Prop where
  le : n ≤ o.resume
  knows : o.leadIn.Knows ((stretch q n o.resume).map (·.tag))
  none : ∀ (p : Pattern) (i : Nat), n ≤ i → i + p.period ≤ o.resume → ¬ p.OpensAt q i

/-- Either the first group from `n` on that can open a run has opened one, or there is none yet. -/
inductive PursuesFrom (o : Optimizer) (q : List Instruction) (n : Nat) : Prop
  | follows (run : Run) (hrun : o.run = some run) (le : n ≤ run.first)
    (earliest : ∀ (p : Pattern) (i : Nat), n ≤ i → i < run.first → ¬ p.OpensAt q i)
  | looks (hrun : o.run = none) (looksFrom : o.LooksFrom q n)

theorem PursuesFrom.looksFrom (h : o.PursuesFrom q n) (hrun : o.run = none) : o.LooksFrom q n := by
  cases h with
  | follows run hrun' => cases hrun.symm.trans hrun'
  | looks _ h => exact h

theorem PursuesFrom.earliest (h : o.PursuesFrom q n) {run : Run} (hrun : o.run = some run) :
    n ≤ run.first ∧ ∀ (p : Pattern) (i : Nat), n ≤ i → i < run.first → ¬ p.OpensAt q i := by
  cases h with
  | follows run' hrun' hle h =>
    obtain rfl : run = run' := Option.some.inj (hrun.symm.trans hrun')
    exact ⟨hle, h⟩
  | looks hrun' => cases hrun.symm.trans hrun'

theorem looksFrom_fresh (l : Limits) (q : List Instruction) (n : Nat) :
    LooksFrom { limits := l, resume := n } q n := by
  refine ⟨le_rfl, ?_, fun p i hi hn ↦ ?_⟩
  · have hnil : stretch q n n = [] := by rw [stretch, Nat.sub_self, List.take_zero]
    dsimp only
    rw [hnil]
    exact LeadIn.knows_root_nil
  · have := p.period_pos
    dsimp only at hn
    omega

section Looking

variable {tag : Tag} {leadIn : LeadIn}

theorem stretch_succ (hn : n ≤ o.resume) (htag : q[o.resume]?.map (·.tag) = some tag) :
    (stretch q n (o.resume + 1)).map (·.tag) = (stretch q n o.resume).map (·.tag) ++ [tag] := by
  have hlast : (stretch q o.resume (o.resume + 1)).map (·.tag) = [tag] := by
    rw [stretch, drop_eq_cons htag, Nat.add_sub_cancel_left]
    rfl
  rw [← stretch_append_stretch hn (Nat.le_succ _), List.map_append, hlast]

theorem LooksFrom.succ (h : o.LooksFrom q n) (htag : q[o.resume]?.map (·.tag) = some tag)
    (hknows : leadIn.Knows ((stretch q n o.resume).map (·.tag) ++ [tag]))
    (hends : ∀ p : Pattern, p.group <:+ (stretch q n o.resume).map (·.tag) ++ [tag] →
      ¬ p.opens q (o.resume + 1 - p.period)) :
    LooksFrom { o with leadIn := leadIn, resume := o.resume + 1 } q n := by
  have hle := h.le
  rw [← stretch_succ hle htag] at hknows hends
  refine ⟨hle.trans (Nat.le_succ _), hknows, fun p i hi hstop hopens ↦ ?_⟩
  obtain hlt | heq := (show i + p.period ≤ o.resume + 1 from hstop).lt_or_eq
  · exact h.none p i hi (Nat.le_of_lt_succ hlt) hopens
  · have hsuffix := (Pattern.suffix_iff_groupAt hi heq (lt_of_tag htag)).2 hopens.group
    obtain rfl : i = o.resume + 1 - p.period := by omega
    exact hends p hsuffix hopens.opens

theorem LooksFrom.enter (h : o.LooksFrom q n) (htag : q[o.resume]?.map (·.tag) = some tag) {p : Pattern}
    (hread : o.leadIn.read tag = .complete p) :
    n ≤ o.resume + 1 - p.period ∧
      ∀ (p' : Pattern) (i : Nat), n ≤ i → i < o.resume + 1 - p.period → ¬ p'.OpensAt q i := by
  have hle := h.le
  have hstop := lt_of_tag htag
  have hends := ((h.knows.complete hread).2 p).2 rfl
  rw [← stretch_succ hle htag] at hends
  have hlength : p.period ≤ o.resume + 1 - n := by
    have := hends.length_le
    rwa [List.length_map, length_stretch hstop] at this
  have hgroup : p.GroupAt q (o.resume + 1 - p.period) :=
    (Pattern.suffix_iff_groupAt (by omega) (by omega) hstop).1 hends
  refine ⟨by omega, fun p' i hi hlt hopens ↦ ?_⟩
  by_cases hseen : i + p'.period ≤ o.resume
  · exact h.none p' i hi hseen hopens
  · have := (hopens.group.eq_of_lt hgroup hlt.le (by have := p.period_pos; omega)).1
    omega

end Looking

def Turned (l : Limits) (is : List Instruction) (s : Optimizer × List Instruction) : Prop :=
  s.1.limits = l ∧ ∃ n, Turns l (is, 0) (s.2, n) ∧ s.1.PursuesFrom s.2 n

variable {is : List Instruction}

theorem turned_fresh (l : Limits) (is : List Instruction) : Turned l is ({ limits := l }, is) :=
  ⟨rfl, 0, Relation.ReflTransGen.refl, .looks rfl (looksFrom_fresh l is 0)⟩

theorem Step.turned (h : Step s s') (hs : s.1.Recalls s.2) (ht : Turned l is s) : Turned l is s' := by
  obtain ⟨hlimits, n, hturns, hpursues⟩ := ht
  cases h with
  | @follow o q run hrun =>
    obtain ⟨hle, hearliest⟩ := hpursues.earliest hrun
    exact ⟨hlimits, n, hturns, .follows run hrun hle hearliest⟩
  | @close o q run b start next form hrun hend hbatch hgives =>
    obtain ⟨hle, hearliest⟩ := hpursues.earliest hrun
    dsimp only at hlimits
    rw [hgives.batching, hlimits] at hbatch
    have hturn : Turn l run.pattern run.first o.resume (q, n)
        (q.take start ++ form ++ q.drop next, start + form.length) :=
      ⟨hle, hearliest, (hs.run run hrun).2, hend, hbatch⟩
    exact ⟨hlimits, _, hturns.tail ⟨_, _, _, hturn⟩, .looks rfl (looksFrom_fresh _ _ _)⟩
  | @skip o q tag hrun htag hread =>
    have hlooks := hpursues.looksFrom hrun
    obtain ⟨hknows, hends⟩ := hlooks.knows.miss hread
    exact ⟨hlimits, n, hturns, .looks hrun (hlooks.succ htag hknows fun p hp ↦ absurd hp (hends p))⟩
  | @lead o q tag leadIn hrun htag hread =>
    have hlooks := hpursues.looksFrom hrun
    obtain ⟨hknows, hends⟩ := hlooks.knows.advanced hread
    exact ⟨hlimits, n, hturns, .looks hrun (hlooks.succ htag hknows fun p hp ↦ absurd hp (hends p))⟩
  | @enter o q tag p hrun htag hread hopens =>
    obtain ⟨hle, hearliest⟩ := (hpursues.looksFrom hrun).enter htag hread
    exact ⟨hlimits, n, hturns, .follows _ rfl hle hearliest⟩
  | @refuse o q tag p hrun htag hread hopens =>
    have hlooks := hpursues.looksFrom hrun
    obtain ⟨hknows, hends⟩ := hlooks.knows.complete hread
    refine ⟨hlimits, n, hturns, .looks hrun (hlooks.succ htag hknows fun p' hp' ↦ ?_)⟩
    obtain rfl := (hends p').1 hp'
    exact hopens

theorem turned_of_steps (h : ReflTransGen Step s s') (hs : s.1.Recalls s.2) (ht : Turned l is s) :
    Turned l is s' := by
  induction h with
  | refl => exact ht
  | tail hsteps hstep ih => exact hstep.turned (recalls_of_steps hsteps hs) ih

/-- The queue that comes out is what the runs of the stream give way to, up to where no group opens another. -/
theorem exists_turns (hl : l.violation? = none) (is : List Instruction) :
    ∃ q n, optimized l is = ofList q ∧ Turns l (is, 0) (q, n) ∧ ∀ (p : Pattern) (i : Nat), n ≤ i → ¬ p.OpensAt q i := by
  have hvalid := Limits.violation?_eq_none_iff.1 hl
  have hfresh := recalls_fresh hvalid (Nat.zero_le is.length)
  obtain ⟨s, hsteps, hend, hscan⟩ := scan_ok ({ limits := l }, is) hfresh
  have hrecalls := recalls_of_steps hsteps hfresh
  obtain ⟨s', hsteps', hend', hnone, hsettle⟩ := settle_ok s hrecalls hend
  have hpushed := Except.ok.inj ((scan_eq_pushAll hvalid is).symm.trans hscan)
  obtain ⟨-, n, hturns, hpursues⟩ := turned_of_steps (hsteps.trans hsteps') hfresh (turned_fresh l is)
  refine ⟨s'.2, n, ?_, hturns, fun p i hi hopens ↦ ?_⟩
  · rw [optimized, hpushed]
    dsimp only
    rw [flush, hsettle]
  · have hwithin := hopens.group.within
    exact (hpursues.looksFrom hnone).none p i hi (hwithin.trans hend'.ge) hopens

end Optimizer

end DisplayList
