import DisplayList.Proofs.Leftovers

/-!
A queue that is optimized again.

What is left of a queue are runs that stay and what runs gave way to. A second pass comes upon the same runs, or upon
parts of them, and none of them is long enough to be batched. That it leaves the short ones as they are as well needs
more: no solid mask leads a run of masks, and no single text that would be dealt with stands where it could join
another. The first pass has seen to both.
-/

namespace DisplayList

open Columns (ofList)

namespace Pattern

variable {l : Limits} {p : Pattern} {q q' : List Instruction} {first start stop n n' m i : Nat}

section Congruence

theorem GroupAt.congr (h : p.GroupAt q i) (hsame : ∀ j < i + p.period, q'[j]? = q[j]?) : p.GroupAt q' i := by
  intro k hk
  rw [hsame _ (Nat.add_lt_add_left hk i)]
  exact h k hk

theorem argsOf_congr (hsame : q'[i]? = q[i]?) : argsOf q' i = argsOf q i := by
  rw [argsOf, argsOf, hsame]

theorem followsSameText_congr (hsame : ∀ j < first + 2, q'[j]? = q[j]?) :
    followsSameText q' first = followsSameText q first := by
  have htake : q'.take first = q.take first := by
    apply List.ext_getElem?
    intro j
    rw [List.getElem?_take, List.getElem?_take]
    split
    · exact hsame j (by omega)
    · rfl
  have hbefore : stretch q' (first - 4) first = stretch q (first - 4) first := by
    rw [stretch, stretch, ← List.drop_take, ← List.drop_take, htake]
  rw [followsSameText, followsSameText, hbefore, argsOf_congr (hsame (first - 4) (by omega)),
    argsOf_congr (hsame (first + 1) (by omega))]

theorem IsRun.take (h : p.IsRun q first stop) (hn : 0 < n) (hstop : first + p.period * n ≤ stop) :
    p.IsRun q first (first + p.period * n) := by
  refine ⟨?_, hstop.trans h.within, fun i hi hlt ↦ h.tags i hi (by omega), h.opens,
    fun i hi hlt ↦ h.agrees i hi (by omega)⟩
  exact Nat.add_le_add_left (Nat.le_mul_of_pos_right _ hn) _

end Congruence

/-- What is more to be said of the groups before `n` than that they are few. -/
structure Finished (l : Limits) (q : List Instruction) (n : Nat) : Prop where
  masks : ∀ i < n, imageMasks.GroupAt q i → paintsSolidUnit (argsOf q (i + 2)) →
    ∃ j, j + 4 = i ∧ imageMasks.GroupAt q j
  /-- Where single texts are dealt with, those that can join another have joined it. -/
  texts : l.minGlyphRuns ≤ 1 → ∀ i < n, glyphRuns.GroupAt q i → ¬ followsSameText q i

section Finishing

theorem finished_zero (l : Limits) (q : List Instruction) : Finished l q 0 :=
  ⟨fun _ hi ↦ absurd hi (Nat.not_lt_zero _), fun _ _ hi ↦ absurd hi (Nat.not_lt_zero _)⟩

theorem Finished.advance (hf : Finished l q n) (hno : ∀ (p : Pattern) (i : Nat), n ≤ i → i < m → ¬ p.OpensAt q i) :
    Finished l q m := by
  refine ⟨fun i hi hgroup hsolid ↦ ?_, fun hmin i hi hgroup ↦ ?_⟩
  · obtain hlt | hge := Nat.lt_or_ge i n
    · exact hf.masks i hlt hgroup hsolid
    · exact absurd ⟨hgroup, rfl⟩ (hno imageMasks i hge hi)
  · obtain hlt | hge := Nat.lt_or_ge i n
    · exact hf.texts hmin i hlt hgroup
    · exact absurd ⟨hgroup, rfl⟩ (hno glyphRuns i hge hi)

theorem Finished.clear (hf : Finished l q first) (hsame : ∀ i < start, q'[i]? = q[i]?) (hle : start ≤ first)
    (hclear : Clear q' start n') : Finished l q' n' := by
  have hbefore {p : Pattern} {i : Nat} (hi : i < n') (hgroup : p.GroupAt q' i) : i + p.period ≤ start :=
    Nat.not_lt.1 fun hlt ↦ hclear p i hi hlt hgroup
  have hback {p : Pattern} {i : Nat} (hend : i + p.period ≤ start) (hgroup : p.GroupAt q' i) : p.GroupAt q i :=
    hgroup.congr fun j hj ↦ (hsame j (by omega)).symm
  refine ⟨fun i hi hgroup hsolid ↦ ?_, fun hmin i hi hgroup ↦ ?_⟩
  · have hend : i + 4 ≤ start := hbefore hi hgroup
    rw [argsOf_congr (hsame (i + 2) (by omega))] at hsolid
    obtain ⟨j, rfl, hgroup'⟩ := hf.masks i (by omega) (hback hend hgroup) hsolid
    exact ⟨j, rfl, hgroup'.congr fun k (hk : k < j + 4) ↦ hsame k (by omega)⟩
  · have hend : i + 5 ≤ start := hbefore hi hgroup
    rw [followsSameText_congr fun j hj ↦ hsame j (by omega)]
    exact hf.texts hmin i (by omega) (hback hend hgroup)

theorem Finished.stay (hf : Finished l q first) (h : p.IsRun q first stop) (hn : first + p.period * n ≤ stop)
    (hsolid : p = imageMasks → ¬ paintsSolidUnit (argsOf q (first + 2)))
    (hsingle : p = glyphRuns → l.minGlyphRuns ≤ 1 → n ≤ 1 ∧ ¬ followsSameText q first) :
    Finished l q (first + p.period * n) := by
  refine ⟨fun i hi hgroup hpaint ↦ ?_, fun hmin i hi hgroup ↦ ?_⟩
  · obtain hlt | hge := Nat.lt_or_ge i first
    · exact hf.masks i hlt hgroup hpaint
    obtain ⟨rfl, k, hk, rfl⟩ := exists_of_groupAt h.tags hn hgroup hge hi
    cases k with
    | zero => exact absurd hpaint (hsolid rfl)
    | succ k =>
      refine ⟨first + 4 * k, rfl, groupAt_of_tags (p := imageMasks) h.tags ?_⟩
      exact (Nat.add_le_add_left (Nat.mul_le_mul_left _ hk.le) first).trans hn
  · obtain hlt | hge := Nat.lt_or_ge i first
    · exact hf.texts hmin i hlt hgroup
    obtain ⟨rfl, k, hk, rfl⟩ := exists_of_groupAt h.tags hn hgroup hge hi
    obtain ⟨hone, hno⟩ := hsingle rfl hmin
    obtain rfl : k = 0 := by omega
    exact hno

theorem Fate.finished (h : Fate l p q first stop q' n') (hp : p ≠ imageMasks) (hrun : p.IsRun q first stop)
    (hf : Finished l q first) : Finished l q' n' := by
  have hq := hrun.within
  have hwhole := hrun.whole
  cases h with
  | few count few =>
    subst count
    have hdiv := Nat.mul_div_le (stop - first) p.period
    refine hf.stay hrun (by omega) (fun h ↦ absurd h hp) fun h hmin ↦ ?_
    have hpos := Nat.div_pos (show p.period ≤ stop - first by omega) p.period_pos
    subst h
    exact absurd (Nat.lt_of_lt_of_le few hmin) (Nat.not_lt.2 hpos)
  | batched alien within =>
    exact hf.clear (fun i hi ↦ getElem?_before (by omega) hi) le_rfl (clear_batched (by omega) alien)
  | lone least single apart =>
    exact hf.stay (n := 1) hrun hwhole (fun h ↦ absurd h hp) fun _ _ ↦ ⟨le_rfl, apart⟩
  | merged some within =>
    exact hf.clear (fun i hi ↦ getElem?_before (by omega) hi) le_rfl (clear_wrappers _ (by omega) some)
  | joined follows within =>
    exact hf.clear (fun i hi ↦ getElem?_before (by omega) hi) (Nat.sub_le _ _) (clear_textBefore _ (by omega))
  | stuck | solid | allSolid => exact absurd rfl hp

theorem collapseMasks_stays_or (h : imageMasks.IsRun q first stop) (hn : first + 4 * (n + 1) ≤ stop)
    (hb : collapseMasks l (ofList q) first stop (n + 1) = .ok ⟨ofList q', n'⟩) :
    (q' = q ∧ n' = stop - (stop - first) % imageMasks.period) ∨
      ∃ tag args m, (∀ p : Pattern, tag ∉ p.group) ∧
        q' = q.take first ++ [⟨tag, args⟩] ++ q.drop (first + 4 * m) ∧ n' = first + 1 := by
  have hle : first ≤ stop := (Nat.le_add_right _ _).trans h.whole
  have hq := h.within
  cases hm : firstImage? (Quartet.ofIndex q first).paint with
  | none => exact .inl (eq_of_batch hb (collapseMasks_none h hn hm))
  | some mask =>
    have hsame := sameMasks_le mask (Quartet.ofIndex q first) (quartets q (first + 4) n)
    rw [length_quartets] at hsame
    rw [collapseMasks_some (hn.trans hq) hm] at hb
    dsimp only at hb
    split at hb
    · exact .inr ⟨_, _, _, not_mem_group (by simp), eq_of_batch hb (collapse_eq (by omega))⟩
    · cases hmasks : ((quartets q first (min (n + 1) l.maxImageMasks)).map (·.paint)).mapM firstImage? with
      | none =>
        rw [hmasks] at hb
        exact .inl (eq_of_batch hb (leave_eq _ hle))
      | some masks =>
        rw [hmasks] at hb
        exact .inr ⟨_, _, _, not_mem_group (by simp), eq_of_batch hb (collapse_eq (by omega))⟩

theorem batchImageMasks_finished (hl : l.Valid) (h : imageMasks.IsRun q first stop)
    (hb : batchImageMasks l (ofList q) first stop = .ok ⟨ofList q', n'⟩) (hf : Finished l q first) :
    Finished l q' n' := by
  have hmin := hl.imageMasks
  have hwhole : first + 4 ≤ stop := h.whole
  have hq := h.within
  obtain ⟨total, htotal⟩ : ∃ total, total = (stop - first) / 4 := ⟨_, rfl⟩
  obtain ⟨k, hk, hle⟩ := exists_solidMasks q first total
  have hfit : first + 4 * k ≤ q.length := by omega
  have hretagged : Finished l (retagged q first k) (first + 4 * k) := by
    obtain rfl | hpos := Nat.eq_zero_or_pos k
    · rwa [retagged_zero]
    · exact hf.clear (fun i hi ↦ getElem?_retagged_before hfit hi) le_rfl (clear_retagged hfit hpos)
  obtain heq | hlt := hle.eq_or_lt
  · rw [batchImageMasks_eq h htotal hk, if_pos (by omega)] at hb
    obtain ⟨rfl, rfl⟩ := eq_of_batch hb rfl
    rw [sub_mod_eq _ (by omega), show (stop - (first + 4 * k)) / imageMasks.period = 0 from Nat.div_eq_of_lt
      (show stop - (first + 4 * k) < 4 by omega)]
    exact hretagged
  have hrun := h.drop_retagged (k := k) (by omega)
  have hstays : Finished l (retagged q first k) (stop - (stop - (first + 4 * k)) % imageMasks.period) := by
    rw [sub_mod_eq _ (by omega)]
    refine hretagged.stay hrun (show first + 4 * k + 4 * ((stop - (first + 4 * k)) / 4) ≤ stop by omega) (fun _ ↦ ?_)
      fun hp ↦ nomatch hp
    have hhead := ofIndex_retagged hfit (first + 4 * k) le_rfl
    have hno := not_solid_of_lt hk hlt
    rwa [← hhead] at hno
  rw [batchImageMasks_eq h htotal hk] at hb
  split at hb
  · obtain ⟨rfl, rfl⟩ := eq_of_batch hb rfl
    exact hstays
  · obtain ⟨n, hn⟩ := Nat.exists_eq_add_one.2 (show 0 < total - k by omega)
    rw [hn] at hb
    obtain ⟨rfl, rfl⟩ | ⟨tag, args, m, halien, rfl, rfl⟩ := collapseMasks_stays_or hrun (by omega) hb
    · exact hstays
    · have hlength := length_retagged hfit
      exact hretagged.clear (fun i hi ↦ getElem?_before (by omega) hi) le_rfl (clear_batched (by omega) halien)

end Finishing

end Pattern

open Pattern

variable {l : Limits} {p : Pattern} {q : List Instruction} {first stop n i : Nat} {s s' : List Instruction × Nat}

theorem Turn.finished (hl : l.Valid) (h : Turn l p first stop s s') (hf : Finished l s.1 s.2) :
    Finished l s'.1 s'.2 := by
  have hf' : Finished l s.1 first := hf.advance h.earliest
  by_cases hp : p = imageMasks
  · subst hp
    exact batchImageMasks_finished hl h.run h.batch hf'
  · exact (fate_of_batch hl h.run h.batch).finished hp h.run hf'

theorem finished_of_turns (hl : l.Valid) (h : Turns l s s') (hf : Finished l s.1 s.2) : Finished l s'.1 s'.2 := by
  induction h with
  | refl => exact hf
  | tail _ hturn ih =>
    obtain ⟨p, first, stop, hturn⟩ := hturn
    exact hturn.finished hl ih

/-- A queue in which no run is left to be dealt with. -/
structure Settled (l : Limits) (q : List Instruction) : Prop where
  long : ∀ (p : Pattern) (i : Nat), p.LongAt l q i → p = imageMasks ∧
    ∃ start k, (∀ j, start ≤ j → j < start + 4 * k → imageMasks.TagFits q start j) ∧ start ≤ i ∧
      i + 4 * l.minImageMasks ≤ start + 4 * k ∧ Stuck l (quartets q start k)
  finished : ∀ n, Finished l q n

theorem exists_settled (hl : l.violation? = none) (is : List Instruction) :
    ∃ q, Optimizer.optimized l is = ofList q ∧ Settled l q := by
  obtain ⟨q, hq, hlong⟩ := exists_stuck hl is
  obtain ⟨q', n, hq', hturns, hrest⟩ := Optimizer.exists_turns hl is
  obtain rfl : q = q' := Columns.ofList_injective (hq.symm.trans hq')
  have hfinished : Finished l q n :=
    finished_of_turns (Limits.violation?_eq_none_iff.1 hl) hturns (finished_zero l is)
  exact ⟨q, hq, hlong, fun m ↦ hfinished.advance fun p i hi _ ↦ hrest p i hi⟩

/-- No mask that ends at `n`, or that holds it, is followed by another. -/
def Border (q : List Instruction) (n : Nat) : Prop :=
  ∀ i, i < n → n ≤ i + 4 → imageMasks.GroupAt q i → ¬ imageMasks.GroupAt q (i + 4)

section SecondPass

theorem border_zero (q : List Instruction) : Border q 0 := fun _ hi ↦ absurd hi (Nat.not_lt_zero _)

theorem Turn.no_mask_before (hborder : Border q n) (h : Turn l imageMasks (i + 4) stop (q, n) s) :
    ¬ imageMasks.GroupAt q i := by
  intro hgroup
  obtain hlt | hge := Nat.lt_or_ge i n
  · exact hborder i hlt h.le hgroup h.run.opensAt.group
  · exact h.earliest imageMasks i hge (by omega) ⟨hgroup, rfl⟩

theorem Settled.short (hs : Settled l q) (hl : l.Valid) (h : p.IsRun q first stop) (hp : p ≠ imageMasks) :
    (stop - first) / p.period < p.long l := by
  by_contra hlong
  have hle := Nat.mul_le_mul_left p.period (Nat.not_lt.1 hlong)
  have hdiv := Nat.mul_div_le (stop - first) p.period
  have hwhole := h.whole
  exact hp (hs.long p first (h.take (long_pos hl p) (by omega))).1

theorem Settled.batchGlyphRuns_eq (hs : Settled l q) (hl : l.Valid) (h : glyphRuns.IsRun q first stop) :
    batchGlyphRuns l (ofList q) first stop = .ok ⟨ofList q, stop - (stop - first) % glyphRuns.period⟩ := by
  have hwhole : first + 5 ≤ stop := h.whole
  have hmin := hl.glyphRuns
  have hcount : (stop - first) / 5 < max 2 l.minGlyphRuns := hs.short hl h (by decide)
  by_cases hn : min ((stop - first) / 5) l.maxGlyphRuns < l.minGlyphRuns
  · exact batchGlyphRuns_short h hn
  · have happart := (hs.finished (first + 1)).texts (by omega) first (Nat.lt_succ_self _) h.opensAt.group
    rw [batchGlyphRuns_alone (n := 0) h (by omega) (by omega) happart, h.merged_alone,
      sub_mod_eq _ (by omega), show (stop - first) / glyphRuns.period = 1 from (show (stop - first) / 5 = 1 by omega)]
    rfl

theorem Pattern.Stuck.append {gs : List Quartet} (h : Stuck l gs) (hpos : 0 < l.minImageMasks) (ks : List Quartet) :
    Stuck l (gs ++ ks) := by
  obtain ⟨g, gs, rfl⟩ := List.exists_cons_of_length_pos (hpos.trans_le h.long)
  refine ⟨?_, ?_, h.notSolid, fun g' gs' mask hgs hmask hupright ↦ ?_⟩
  · rw [List.length_append]
    exact h.long.trans (Nat.le_add_right _ _)
  · obtain ⟨g', hg', hnone⟩ := h.imageless
    refine ⟨g', ?_, hnone⟩
    rw [List.take_append]
    exact List.mem_append_left _ hg'
  · rw [List.cons_append] at hgs
    obtain ⟨rfl, rfl⟩ := List.cons_eq_cons.1 hgs
    have hfew := h.fewRepeats g gs mask rfl hmask hupright
    have hlong := h.long
    have hends : (gs.takeWhile (paintsSame mask g)).length ≠ gs.length := by
      change sameMasks mask g gs ≠ gs.length
      rw [List.length_cons] at hlong
      omega
    rwa [sameMasks, List.takeWhile_append, if_neg hends]

theorem Turn.batchImageMasks_eq (hs : Settled l q) (hl : l.Valid) (hborder : Border q n)
    (h : Turn l imageMasks first stop (q, n) s) :
    batchImageMasks l (ofList q) first stop = .ok ⟨ofList q, stop - (stop - first) % imageMasks.period⟩ := by
  have hrun : imageMasks.IsRun q first stop := h.run
  have hwhole : first + 4 ≤ stop := hrun.whole
  have hmin := hl.imageMasks
  by_cases hlong : l.minImageMasks ≤ (stop - first) / 4
  · have hfit : first + 4 * l.minImageMasks ≤ stop := by omega
    obtain ⟨-, start, k, htags, hle, hcovers, hstuck⟩ := hs.long imageMasks first (hrun.take hmin.1 hfit)
    -- The run is led by the same mask as the one that was stuck.
    obtain ⟨-, m, hm, hfirst⟩ := exists_of_groupAt (p := imageMasks) (n := k) htags le_rfl hrun.opensAt.group hle
      (show first < start + 4 * k by omega)
    obtain rfl : m = 0 := by
      by_contra hne
      obtain ⟨m, rfl⟩ := Nat.exists_eq_succ_of_ne_zero hne
      obtain rfl : first = start + 4 * m + 4 := hfirst
      exact h.no_mask_before hborder (groupAt_of_tags (p := imageMasks) htags (show start + 4 * (m + 1) ≤ _ by omega))
    obtain rfl : first = start := hfirst
    have hstop : first + 4 * k ≤ stop := Nat.not_lt.1 fun hlt ↦ h.ends ⟨htags stop (by omega) hlt, rfl⟩
    obtain ⟨r, hr⟩ := Nat.exists_eq_add_of_le (show k ≤ (stop - first) / 4 by omega)
    refine batchImageMasks_stuck hrun ?_
    rw [hr, quartets_add]
    exact hstuck.append hmin.1 _
  · have hhead : ¬ paintsSolidUnit (Quartet.ofIndex q first).paint := by
      intro hsolid
      obtain ⟨i, rfl, hgroup⟩ :=
        (hs.finished (first + 1)).masks first (Nat.lt_succ_self _) hrun.opensAt.group hsolid
      exact h.no_mask_before hborder hgroup
    obtain ⟨n, hn⟩ := Nat.exists_eq_add_one.2 (show 0 < (stop - first) / 4 by omega)
    have hnone : 0 = solidMasks (quartets q first (n + 1)) := by
      rw [quartets_succ, solidMasks_eq_zero _ hhead]
    rw [Pattern.batchImageMasks_eq hrun hn.symm hnone, if_pos (by omega), retagged_zero]
    rfl

theorem Turn.stays (hs : Settled l q) (hl : l.Valid) (hborder : Border q n) (h : Turn l p first stop (q, n) s) :
    s = (q, first + p.period * ((stop - first) / p.period)) := by
  have hrun : p.IsRun q first stop := h.run
  have hwhole := hrun.whole
  have hbatch : p.batch l (ofList q) first stop = .ok ⟨ofList q, stop - (stop - first) % p.period⟩ := by
    cases p with
    | inlineImages =>
      have hshort : (stop - first) / 4 < l.minInlineImages := hs.short hl hrun (by decide)
      exact batchInlineImages_short hrun (by omega)
    | imageMasks => exact h.batchImageMasks_eq hs hl hborder
    | images =>
      have hshort : (stop - first) / 4 < l.minImages := hs.short hl hrun (by decide)
      exact batchImages_short hrun (by omega)
    | glyphRuns => exact hs.batchGlyphRuns_eq hl hrun
  obtain ⟨hq, hn⟩ := eq_of_batch h.batch hbatch
  rw [sub_mod_eq _ (by omega)] at hn
  exact Prod.ext hq hn

theorem Turn.border (h : Turn l p first stop (q, n) s) : Border q (first + p.period * ((stop - first) / p.period)) := by
  have hrun : p.IsRun q first stop := h.run
  have hdiv := Nat.div_add_mod (stop - first) p.period
  have hmod := Nat.mod_lt (stop - first) p.period_pos
  have hwhole := hrun.whole
  intro i hi hle hgroup hnext
  obtain hlt | hge := Nat.lt_or_ge i first
  · have hpos := Nat.mul_pos p.period_pos (Nat.div_pos (show p.period ≤ stop - first by omega) p.period_pos)
    have := (hgroup.eq_of_lt hrun.opensAt.group hlt.le (show first < i + 4 by omega)).1
    omega
  · obtain ⟨rfl, k, hk, rfl⟩ := exists_of_groupAt hrun.tags (show first + p.period * _ ≤ stop by omega) hgroup hge hi
    have hnext' : imageMasks.GroupAt q (first + imageMasks.period * (k + 1)) := hnext
    have hin : k < (stop - first) / 4 := hk
    have hlast : first + 4 * ((stop - first) / 4) ≤ first + 4 * k + 4 := hle
    have hstart : first + imageMasks.period * (k + 1) ≤ stop := show first + 4 * (k + 1) ≤ stop by omega
    exact h.ends ⟨tagFits_of_shift hstart (groupAt_iff_tagFits.1 hnext' stop hstart
      (show stop < first + 4 * (k + 1) + 4 by omega)), rfl⟩

theorem Turns.stays (hs : Settled l q) (hl : l.Valid) (h : Turns l (q, 0) s) : s.1 = q ∧ Border q s.2 := by
  induction h with
  | refl => exact ⟨rfl, border_zero q⟩
  | @tail s s' _ hturn ih =>
    obtain ⟨p, first, stop, hturn⟩ := hturn
    obtain ⟨q', n⟩ := s
    obtain ⟨rfl, hborder⟩ := ih
    rw [hturn.stays hs hl hborder]
    exact ⟨rfl, hturn.border⟩

end SecondPass

namespace Optimizer

/-- What was optimized comes out of the optimizer as it is. -/
theorem optimized_idempotent (hl : l.violation? = none) (is : List Instruction) :
    optimized l (optimized l is).toList = optimized l is := by
  obtain ⟨q, hq, hsettled⟩ := exists_settled hl is
  rw [hq, Columns.toList_ofList]
  obtain ⟨q', n, hq', hturns, -⟩ := exists_turns hl q
  obtain ⟨rfl, -⟩ := hturns.stays hsettled (Limits.violation?_eq_none_iff.1 hl)
  exact hq'

theorem optimized_idempotent_scattered :
    ({} : Limits).violation? = none ∧
      optimized {} (optimized {} scattered).toList = optimized {} scattered :=
  ⟨by decide, optimized_idempotent (by decide) scattered⟩

end Optimizer

end DisplayList
