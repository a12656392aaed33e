import DisplayList.Proofs.Clearings
import DisplayList.Proofs.Likeness

/-!
Runs that stay.

Before the place where scanning goes on stands no run that is long enough to be batched, but for masks that are stuck,
and for a text that the next run joins. Every turn keeps this: what gives way to a run leaves no room for a group, and
a run that stays is followed to its end, so that what stands in it is no longer than it is.
-/

namespace DisplayList

open Columns (ofList)

namespace Pattern

variable {l : Limits} {p p' : Pattern} {q q' : List Instruction} {first start stop stop' n n' i j k : Nat}

section Runs

theorem mod_shift (hi : first + n * k ≤ i) : (i - first) % n = (i - (first + n * k)) % n := by
  conv_lhs => rw [← Nat.sub_add_cancel (show n * k ≤ i - first by omega), Nat.sub_sub, Nat.add_mul_mod_self_left]

theorem tagFits_of_shift (hi : first + p.period * k ≤ i) (h : p.TagFits q (first + p.period * k) i) :
    p.TagFits q first i := by
  rwa [TagFits, mod_shift hi]

theorem agrees_trans (hi : first + p.period * k ≤ i)
    (hgroup : p.agrees q first (first + p.period * k + (i - (first + p.period * k)) % p.period))
    (h : p.agrees q (first + p.period * k) i) : p.agrees q first i := by
  have ho := Nat.mod_lt (i - (first + p.period * k)) p.period_pos
  have hm' := offset_eq p ho first k
  unfold agrees at hgroup h ⊢
  rw [hm'] at hgroup
  rw [mod_shift hi]
  generalize (i - (first + p.period * k)) % p.period = o at *
  cases p <;> rcases o with _ | _ | _ | o <;> try trivial
  · exact sameScale_trans hgroup h
  · exact sameSubject_trans hgroup h
  · exact Arg.sharesWithAll_trans hgroup h

theorem IsRun.stop_le (h : p.IsRun q first stop) (hends : ¬ (p.TagFits q first stop ∧ p.agrees q first stop))
    (hk : first + p.period * (k + 1) ≤ stop) (h' : p.IsRun q (first + p.period * k) stop') : stop' ≤ stop := by
  by_contra hlt
  rw [Nat.mul_succ] at hk
  have hle : first + p.period * k ≤ stop := by omega
  refine hends ⟨tagFits_of_shift hle (h'.tags stop hle (by omega)), ?_⟩
  have hagrees := h'.agrees stop (by omega) (by omega)
  obtain rfl | hpos := Nat.eq_zero_or_pos k
  · rwa [Nat.mul_zero, Nat.add_zero] at hagrees
  · have hmod := Nat.mod_lt (stop - (first + p.period * k)) p.period_pos
    have hperiod := Nat.mul_le_mul_left p.period hpos
    exact agrees_trans hle (h.agrees _ (by omega) (by omega)) hagrees

theorem IsRun.congr (h : p.IsRun q first stop) (hsame : ∀ i < stop, q'[i]? = q[i]?) : p.IsRun q' first stop := by
  have hfour := p.four_le_period
  have hwhole := h.whole
  have hargs (i : Nat) (hi : i < stop) : argsOf q' i = argsOf q i := by rw [argsOf, argsOf, hsame i hi]
  refine ⟨hwhole, ?_, fun i hi his ↦ ?_, ?_, fun i hi his ↦ ?_⟩
  · have hlast := hsame (stop - 1) (by omega)
    rw [List.getElem?_eq_getElem (show stop - 1 < q.length by have := h.within; omega)] at hlast
    have := (List.getElem?_eq_some_iff.1 hlast).1
    omega
  · rw [TagFits, hsame i his]
    exact h.tags i hi his
  · have ho := h.opens
    unfold Pattern.opens at ho ⊢
    rwa [hargs _ (by omega), hargs _ (by omega)]
  · have ha := h.agrees i hi his
    unfold Pattern.agrees at ha ⊢
    rwa [hargs _ his, hargs _ (by omega), hargs _ (by omega)]

theorem quartets_congr (hsame : ∀ i < first + 4 * n, q'[i]? = q[i]?) : quartets q' first n = quartets q first n := by
  refine List.map_congr_left fun k hk ↦ ?_
  have hk := List.mem_range.1 hk
  have hargs (i : Nat) (hi : i < first + 4 * n) : argsOf q' i = argsOf q i := by rw [argsOf, argsOf, hsame i hi]
  rw [Quartet.ofIndex, Quartet.ofIndex, hargs _ (by omega), hargs _ (by omega), hargs _ (by omega),
    hargs _ (by omega)]

end Runs

/-- The fewest groups that do not stay. One text has nothing to be merged with. -/
def long (l : Limits) : Pattern → Nat
  | glyphRuns => max 2 l.minGlyphRuns
  | p => p.least l

def LongAt (l : Limits) (p : Pattern) (q : List Instruction) (i : Nat) : Prop := p.IsRun q i (i + p.period * p.long l)

/-- Why a run that is long enough may stand before `n`, where scanning goes on. -/
inductive Excused (l : Limits) (q : List Instruction) (n : Nat) : Pattern → Nat → Prop
  /-- The first of two texts was dealt with alone. The second one comes next, and joins it. -/
  | next {i : Nat} (alone : l.maxGlyphRuns = 1) (next : i + 5 = n) : Excused l q n glyphRuns i
  /-- All masks of the run are among those of a run that is stuck. -/
  | stuck {i start k : Nat} (tags : ∀ j, start ≤ j → j < start + 4 * k → imageMasks.TagFits q start j) (le : start ≤ i)
    (covers : i + 4 * l.minImageMasks ≤ start + 4 * k) (before : start + 4 * k ≤ n)
    (stuck : Stuck l (quartets q start k)) : Excused l q n imageMasks i

/-- No run before `n` is long enough to be batched without an excuse. -/
def Tidy (l : Limits) (q : List Instruction) (n : Nat) : Prop :=
  ∀ (p : Pattern) (i : Nat), i < n → p.LongAt l q i → Excused l q n p i

section Tidiness

theorem least_le_long (l : Limits) (p : Pattern) : p.least l ≤ p.long l := by
  cases p with
  | glyphRuns => exact Nat.le_max_right _ _
  | _ => exact le_rfl

theorem long_pos (hl : l.Valid) (p : Pattern) : 0 < p.long l := by
  have hi := hl.inlineImages.1
  have hm := hl.imageMasks.1
  have hs := hl.images.1
  cases p with
  | inlineImages => exact hi
  | imageMasks => exact hm
  | images => exact hs
  | glyphRuns => exact Nat.lt_of_lt_of_le Nat.two_pos (Nat.le_max_left _ _)

theorem tidy_zero (l : Limits) (q : List Instruction) : Tidy l q 0 := fun _ _ hi ↦ absurd hi (Nat.not_lt_zero _)

theorem LongAt.second (h : glyphRuns.LongAt l q i) : glyphRuns.OpensAt q (i + 5) := by
  have htwo : 2 ≤ glyphRuns.long l := Nat.le_max_left _ _
  have hstop : i + 5 * (1 + 1) ≤ i + 5 * glyphRuns.long l := by omega
  exact ⟨groupAt_of_tags (p := glyphRuns) (k := 1) h.tags hstop, rfl⟩

theorem Tidy.advance {m : Nat} (ht : Tidy l q n) (hnm : n ≤ m)
    (hno : ∀ (p : Pattern) (i : Nat), n ≤ i → i < m → ¬ p.OpensAt q i) : Tidy l q m := by
  intro p i hi hlong
  obtain hlt | hge := Nat.lt_or_ge i n
  · cases ht p i hlt hlong with
    | next alone next =>
      have hopens := hlong.second
      rw [next] at hopens
      obtain hlt | rfl := hnm.lt_or_eq
      · exact absurd hopens (hno glyphRuns n le_rfl hlt)
      · exact .next alone next
    | stuck tags le covers before stuck => exact .stuck tags le covers (before.trans hnm) stuck
  · exact absurd (IsRun.opensAt hlong) (hno p i hge hi)

theorem Tidy.clear (hl : l.Valid) (ht : Tidy l q first) (hsame : ∀ i < start, q'[i]? = q[i]?) (hle : start ≤ first)
    (hlt : start < n') (hclear : Clear q' start n')
    (hmasks : ∀ a k, (∀ j, a ≤ j → j < a + 4 * k → imageMasks.TagFits q a j) → a + 4 * k ≤ first → 0 < k →
      a + 4 * k ≤ start) : Tidy l q' n' := by
  intro p i hi hlong
  have hpos := long_pos hl p
  have hstop := stop_le_of_clear hclear hlt hi hpos hlong.tags
  have hbefore : p.LongAt l q i := hlong.congr fun j hj ↦ (hsame j (by omega)).symm
  have hspan := Nat.mul_pos p.period_pos hpos
  cases ht p i (by omega) hbefore with
  | next alone next =>
    have htwo : 2 ≤ glyphRuns.long l := Nat.le_max_left _ _
    have hstop : i + 5 * glyphRuns.long l ≤ start := hstop
    omega
  | @stuck i a k tags le covers before stuck =>
    have hk : 0 < k := by
      have hspan : 0 < 4 * l.minImageMasks := hspan
      omega
    have hbound := hmasks a k tags before hk
    refine .stuck (fun j hj hj' ↦ ?_) le covers (by omega) ?_
    · rw [TagFits, hsame j (by omega)]
      exact tags j hj hj'
    · rwa [quartets_congr fun j hj ↦ hsame j (by omega)]

theorem followsSameText_of_longAt (h : glyphRuns.LongAt l q i) : followsSameText q (i + 5) := by
  have htwo : 2 ≤ glyphRuns.long l := Nat.le_max_left _ _
  have hstop : i + 5 * (0 + 1) ≤ i + 5 * glyphRuns.long l := by omega
  have hgroup : glyphRuns.GroupAt q i := groupAt_of_tags (p := glyphRuns) (k := 0) h.tags hstop
  have hagrees := h.agrees (i + 6) (by change i + 5 ≤ i + 6; omega) (by change i + 6 < i + 5 * _; omega)
  refine followsSameText_iff.2 ⟨by omega, ?_, ?_⟩
  · have hall := (groupAt_iff_map_stretch hgroup.within).1 hgroup
    have htail : stretch q (i + 5 - 4) (i + 5) = (stretch q i (i + 5)).tail := by
      rw [stretch, stretch, ← List.drop_one, List.drop_take, List.drop_drop, Nat.add_sub_cancel_left]
      congr 1
      omega
    rw [htail, List.map_tail]
    exact congrArg List.tail hall
  · have hoffset : (i + 6 - i) % glyphRuns.period = 1 := by rw [Nat.add_sub_cancel_left]; rfl
    unfold Pattern.agrees at hagrees
    rw [hoffset] at hagrees
    exact hagrees

theorem Tidy.stay (ht : Tidy l q first) (h : p.IsRun q first stop)
    (hends : ¬ (p.TagFits q first stop ∧ p.agrees q first stop)) (hn : first + p.period * n ≤ stop)
    (happart : p = glyphRuns → l.maxGlyphRuns = 1 → ¬ followsSameText q first)
    (hinside : ∀ k < n, p.period * (k + p.long l) ≤ stop - first →
      Excused l q (first + p.period * n) p (first + p.period * k)) : Tidy l q (first + p.period * n) := by
  intro p' i hi hlong
  obtain hlt | hge := Nat.lt_or_ge i first
  · cases ht p' i hlt hlong with
    | next alone next =>
      subst next
      have hwrapper := (hlong.second.group.eq_of_lt h.opensAt.group le_rfl (by have := glyphRuns.period_pos; omega)).2
      exact absurd (followsSameText_of_longAt hlong) (happart hwrapper.symm alone)
    | stuck tags le covers before stuck =>
      exact .stuck tags le covers (before.trans (Nat.le_add_right _ _)) stuck
  · obtain ⟨rfl, k, hk, rfl⟩ := exists_of_groupAt h.tags hn hlong.opensAt.group hge hi
    have hle : p'.period * (k + 1) ≤ p'.period * n := Nat.mul_le_mul_left p'.period hk
    have hstop := h.stop_le hends (by omega) hlong
    refine hinside k hk ?_
    rw [Nat.mul_add]
    omega

theorem getElem?_retagged_before (hq : first + 4 * n ≤ q.length) (hi : i < first) : (retagged q first n)[i]? = q[i]? :=
  getElem?_before (by omega) hi

theorem Fate.tidy (hl : l.Valid) (h : Fate l p q first stop q' n') (hrun : p.IsRun q first stop)
    (hends : ¬ (p.TagFits q first stop ∧ p.agrees q first stop)) (ht : Tidy l q first) : Tidy l q' n' := by
  induction h with
  | @few p q first stop n count few =>
    have hwhole := hrun.whole
    have hdiv := Nat.div_mul_le_self (stop - first) p.period
    have hpos : 0 < n := count ▸ Nat.div_pos (by omega) p.period_pos
    rw [← count, Nat.mul_comm] at hdiv
    refine ht.stay hrun hends (by omega) (fun hp hmost ↦ ?_) fun k hk hlong ↦ ?_
    · have hmin := hl.glyphRuns
      rw [hp] at few
      have hfew : n < l.minGlyphRuns := few
      omega
    · have hle := (Nat.le_div_iff_mul_le p.period_pos).2 ((Nat.mul_comm _ _).trans_le hlong)
      have := least_le_long l p
      omega
  | @stuck q first stop n count stuck =>
    have hwhole : first + 4 ≤ stop := hrun.whole
    refine ht.stay hrun hends (show first + 4 * n ≤ stop by omega) (fun hp ↦ nomatch hp) fun k hk hlong ↦ ?_
    have hlong : 4 * (k + l.minImageMasks) ≤ stop - first := hlong
    refine .stuck (fun j hj hj' ↦ hrun.tags j hj (by omega)) (Nat.le_add_right _ _) ?_ le_rfl stuck
    change first + 4 * k + 4 * l.minImageMasks ≤ first + 4 * n
    omega
  | @batched p q first stop n tag args alien within =>
    have hq := hrun.within
    have hwhole := hrun.whole
    exact ht.clear hl (fun i hi ↦ getElem?_before (by omega) hi) le_rfl (Nat.lt_succ_self _)
      (clear_batched (by omega) alien) fun _ _ _ hle _ ↦ hle
  | @solid q q' first stop k n' some more rest ih =>
    have hq := hrun.within
    have hfit : first + 4 * k ≤ q.length := by omega
    refine ih (hrun.drop_retagged more) (fun hfits ↦ hends ⟨?_, rfl⟩) ?_
    · have hshift := tagFits_of_shift (p := imageMasks) (k := k) (show first + 4 * k ≤ stop by omega) hfits.1
      rwa [TagFits, getElem?_retagged hfit (by omega)] at hshift
    · exact ht.clear hl (fun i hi ↦ getElem?_retagged_before hfit hi) le_rfl (by omega) (clear_retagged hfit some)
        fun _ _ _ hle _ ↦ hle
  | @allSolid q first stop k some count =>
    have hq := hrun.within
    have hfit : first + 4 * k ≤ q.length := by omega
    exact ht.clear hl (fun i hi ↦ getElem?_retagged_before hfit hi) le_rfl (by omega) (clear_retagged hfit some)
      fun _ _ _ hle _ ↦ hle
  | @lone q first stop least single apart =>
    have hwhole : first + 5 ≤ stop := hrun.whole
    refine ht.stay (n := 1) hrun hends hwhole (fun _ _ ↦ apart) fun k hk hlong ↦ ?_
    have htwo : 2 ≤ glyphRuns.long l := Nat.le_max_left _ _
    have hlong : 5 * (k + glyphRuns.long l) ≤ stop - first := hlong
    refine .next (by omega) ?_
    change first + 5 * k + 5 = first + 5 * 1
    omega
  | @merged q first stop n some within =>
    have hq := hrun.within
    exact ht.clear hl (fun i hi ↦ getElem?_before (by omega) hi) le_rfl (by omega) (clear_wrappers _ (by omega) some)
      fun _ _ _ hle _ ↦ hle
  | @joined q first stop n follows within =>
    have hq := hrun.within
    obtain ⟨hfour, htags, -⟩ := followsSameText_iff.1 follows
    refine ht.clear hl (fun i hi ↦ getElem?_before (by omega) hi) (Nat.sub_le _ _) (by omega)
      (clear_textBefore _ (by omega)) fun a k hmasks hle hk ↦ ?_
    by_contra hlt
    have hlast : q[a + 4 * k - 1]?.map (·.tag) = some .restore := by
      have hfits := hmasks (a + 4 * k - 1) (by omega) (by omega)
      have hoffset : (a + 4 * k - 1 - a) % imageMasks.period = 3 := by
        change (a + 4 * k - 1 - a) % 4 = 3
        omega
      rw [TagFits, hoffset] at hfits
      exact hfits
    have hin := map_stretch_getElem? q (first - 4) first (k := a + 4 * k - 1 - (first - 4)) (by omega)
    rw [htags, Nat.add_sub_cancel' (by omega), hlast] at hin
    have hmem : Tag.restore ∈ textEnd := List.mem_of_getElem? hin
    exact absurd hmem (by decide)

end Tidiness

end Pattern

open Pattern

variable {l : Limits} {p : Pattern} {first stop : Nat} {s s' : List Instruction × Nat}

theorem Turn.tidy (hl : l.Valid) (h : Turn l p first stop s s') (ht : Tidy l s.1 s.2) : Tidy l s'.1 s'.2 :=
  (fate_of_batch hl h.run h.batch).tidy hl h.run h.ends (ht.advance h.le h.earliest)

theorem tidy_of_turns (hl : l.Valid) (h : Turns l s s') (ht : Tidy l s.1 s.2) : Tidy l s'.1 s'.2 := by
  induction h with
  | refl => exact ht
  | tail _ hturn ih =>
    obtain ⟨p, first, stop, hturn⟩ := hturn
    exact hturn.tidy hl ih

/-- Of all that is long enough to be batched, only masks that are stuck are left in the end. -/
theorem exists_stuck (hl : l.violation? = none) (is : List Instruction) :
    ∃ q, Optimizer.optimized l is = ofList q ∧ ∀ (p : Pattern) (i : Nat), p.LongAt l q i →
      p = imageMasks ∧ ∃ start k, (∀ j, start ≤ j → j < start + 4 * k → imageMasks.TagFits q start j) ∧ start ≤ i ∧
        i + 4 * l.minImageMasks ≤ start + 4 * k ∧ Stuck l (quartets q start k) := by
  obtain ⟨q, n, hq, hturns, hrest⟩ := Optimizer.exists_turns hl is
  have htidy := tidy_of_turns (Limits.violation?_eq_none_iff.1 hl) hturns (tidy_zero l is)
  refine ⟨q, hq, fun p i hlong ↦ ?_⟩
  have hi : i < n := Nat.not_le.1 fun hge ↦ hrest p i hge (IsRun.opensAt hlong)
  cases htidy p i hi hlong with
  | next alone next => exact absurd hlong.second (hrest glyphRuns _ next.ge)
  | @stuck i start k tags le covers before stuck => exact ⟨rfl, start, k, tags, le, covers, stuck⟩

end DisplayList
