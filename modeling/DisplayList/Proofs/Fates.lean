import DisplayList.Proofs.Turns

namespace DisplayList

open Columns (ofList)

namespace Pattern

variable {l : Limits} {p : Pattern} {q q' : List Instruction} {first stop n n' : Nat} {gs : List Quartet}

def least (l : Limits) : Pattern → Nat
  | inlineImages => l.minInlineImages
  | imageMasks => l.minImageMasks
  | images => l.minImages
  | glyphRuns => l.minGlyphRuns

/-- A run of masks that stays though it is long enough: one of the masks that would make up a group is not an image,
and too few repeats of one mask lead the run. -/
structure Stuck (l : Limits) (gs : List Quartet) : Prop where
  long : l.minImageMasks ≤ gs.length
  imageless : ∃ g ∈ gs.take l.maxImageMasks, firstImage? g.paint = none
  notSolid : ∀ g ∈ gs.head?, ¬ paintsSolidUnit g.paint
  fewRepeats : ∀ g gs' mask, gs = g :: gs' → firstImage? g.paint = some mask → isUpright g.transform →
    sameMasks mask g gs' + 1 < l.minImageMasks

/-- What a run from `first` to `stop` comes to: the queue after it, and where scanning goes on. -/
inductive Fate (l : Limits) : Pattern → List Instruction → Nat → Nat → List Instruction → Nat → Prop
  | few {p : Pattern} {q : List Instruction} {first stop n : Nat} (count : n = (stop - first) / p.period)
    (few : n < p.least l) : Fate l p q first stop q (first + p.period * n)
  | stuck {q : List Instruction} {first stop n : Nat} (count : n = (stop - first) / 4)
    (stuck : Stuck l (quartets q first n)) : Fate l imageMasks q first stop q (first + 4 * n)
  | batched {p : Pattern} {q : List Instruction} {first stop n : Nat} {tag : Tag} {args : List Arg}
    (alien : ∀ p : Pattern, tag ∉ p.group) (within : first + 4 * n ≤ stop) :
    Fate l p q first stop (q.take first ++ [⟨tag, args⟩] ++ q.drop (first + 4 * n)) (first + 1)
  /-- The solid masks in front come to what they are painted as, and the masks after them are a run again. -/
  | solid {q q' : List Instruction} {first stop k n' : Nat} (some : 0 < k) (more : first + 4 * (k + 1) ≤ stop)
    (rest : Fate l imageMasks (retagged q first k) (first + 4 * k) stop q' n') :
    Fate l imageMasks q first stop q' n'
  | allSolid {q : List Instruction} {first stop k : Nat} (some : 0 < k) (count : k = (stop - first) / 4) :
    Fate l imageMasks q first stop (retagged q first k) (first + 4 * k)
  /-- A single text comes to itself. It may be the first of several if no more than one may be batched. -/
  | lone {q : List Instruction} {first stop : Nat} (least : l.minGlyphRuns ≤ 1)
    (single : (stop - first) / 5 = 1 ∨ l.maxGlyphRuns = 1) (apart : ¬ followsSameText q first) :
    Fate l glyphRuns q first stop q (first + 5)
  | merged {q : List Instruction} {first stop n : Nat} (some : 0 < n) (within : first + 5 * (n + 1) ≤ stop) :
    Fate l glyphRuns q first stop
      (q.take first ++ (Wrapper.ofIndex q first).merged (wrappers q (first + 5) n) ++ q.drop (first + 5 * (n + 1)))
      (first + (2 * n + 5))
  | joined {q : List Instruction} {first stop n : Nat} (follows : followsSameText q first)
    (within : first + 5 * (n + 1) ≤ stop) :
    Fate l glyphRuns q first stop
      (q.take (first - 4) ++ ((textBefore q first).merged (wrappers q first (n + 1))).tail ++
        q.drop (first + 5 * (n + 1))) (first - 4 + (2 * n + 6))

theorem sub_mod_eq (p : Pattern) (h : first ≤ stop) :
    stop - (stop - first) % p.period = first + p.period * ((stop - first) / p.period) := by
  have := Nat.div_add_mod (stop - first) p.period
  omega

theorem not_mem_group {tag : Tag}
    (h : tag ∈ [Tag.paintInlineImageGroup, .paintImageRepeat, .paintImageMaskRepeat, .paintImageMaskGroup,
      .paintSolidMask]) (p : Pattern) : tag ∉ p.group := by
  have hall : ∀ tag ∈ [Tag.paintInlineImageGroup, .paintImageRepeat, .paintImageMaskRepeat, .paintImageMaskGroup,
      .paintSolidMask], ∀ p ∈ all, tag ∉ p.group := by decide
  exact hall tag h p (mem_all p)

theorem eq_of_batch {x : Except Fault Batching} (hb : x = .ok ⟨ofList q', n'⟩)
    (hc : x = .ok ⟨ofList q, n⟩) : q' = q ∧ n' = n := by
  obtain ⟨hq, hn⟩ := Batching.mk.inj (Except.ok.inj (hb.symm.trans hc))
  exact ⟨Columns.ofList_injective hq, hn⟩

theorem batchImages_fate (hl : l.Valid) (h : images.IsRun q first stop)
    (hb : batchImages l (ofList q) first stop = .ok ⟨ofList q', n'⟩) : Fate l images q first stop q' n' := by
  have hle : first ≤ stop := (Nat.le_add_right _ _).trans h.whole
  have hmin := hl.images
  by_cases hn : min ((stop - first) / 4) l.maxImages < l.minImages
  · obtain ⟨rfl, rfl⟩ := eq_of_batch hb (batchImages_short h hn)
    rw [sub_mod_eq _ hle]
    exact .few rfl (show (stop - first) / 4 < l.minImages by omega)
  · obtain ⟨n, hn'⟩ := Nat.exists_eq_add_one.2 (show 0 < min ((stop - first) / 4) l.maxImages by omega)
    obtain ⟨rfl, rfl⟩ := eq_of_batch hb (batchImages_eq h hn'.symm (by omega))
    exact .batched (not_mem_group (by simp)) (by omega)

theorem batchInlineImages_fate (hl : l.Valid) (h : inlineImages.IsRun q first stop)
    (hb : batchInlineImages l (ofList q) first stop = .ok ⟨ofList q', n'⟩) :
    Fate l inlineImages q first stop q' n' := by
  have hle : first ≤ stop := (Nat.le_add_right _ _).trans h.whole
  have hmin := hl.inlineImages
  by_cases hn : min ((stop - first) / 4) l.maxInlineImages < l.minInlineImages
  · obtain ⟨rfl, rfl⟩ := eq_of_batch hb (batchInlineImages_short h hn)
    rw [sub_mod_eq _ hle]
    exact .few rfl (show (stop - first) / 4 < l.minInlineImages by omega)
  · obtain ⟨images, atlas, -, -, -, he⟩ := batchInlineImages_eq h rfl (Nat.not_lt.1 hn)
    obtain ⟨rfl, rfl⟩ := eq_of_batch hb he
    exact .batched (not_mem_group (by simp)) (by omega)

theorem IsRun.merged_alone (h : glyphRuns.IsRun q first stop) :
    q.take first ++ (Wrapper.ofIndex q first).merged (wrappers q (first + 5) 0) ++ q.drop (first + 5 * (0 + 1)) = q := by
  have hwhole : first + 5 ≤ stop := h.whole
  have hone := stretch_eq_wrappers (n := 1) h.tags (by omega)
  have hnone : wrappers q (first + 5) 0 = [] := rfl
  rw [wrappers_succ, hnone, List.flatMap_cons, List.flatMap_nil, List.append_nil] at hone
  rw [hnone, Wrapper.merged_nil, ← hone, take_append_stretch (by omega), List.take_append_drop]

theorem batchGlyphRuns_fate (hl : l.Valid) (h : glyphRuns.IsRun q first stop)
    (hb : batchGlyphRuns l (ofList q) first stop = .ok ⟨ofList q', n'⟩) : Fate l glyphRuns q first stop q' n' := by
  have hle : first ≤ stop := (Nat.le_add_right _ _).trans h.whole
  have hmin := hl.glyphRuns
  by_cases hn : min ((stop - first) / 5) l.maxGlyphRuns < l.minGlyphRuns
  · obtain ⟨rfl, rfl⟩ := eq_of_batch hb (batchGlyphRuns_short h hn)
    rw [sub_mod_eq _ hle]
    exact .few rfl (show (stop - first) / 5 < l.minGlyphRuns by omega)
  obtain ⟨n, hn'⟩ := Nat.exists_eq_add_one.2 (show 0 < min ((stop - first) / 5) l.maxGlyphRuns by omega)
  by_cases hf : followsSameText q first
  · obtain ⟨rfl, rfl⟩ := eq_of_batch hb (batchGlyphRuns_joined h hn'.symm (by omega) hf)
    exact .joined hf (by omega)
  obtain ⟨rfl, rfl⟩ := eq_of_batch hb (batchGlyphRuns_alone h hn'.symm (by omega) hf)
  obtain rfl | hpos := Nat.eq_zero_or_pos n
  · rw [h.merged_alone]
    exact .lone (by omega) (by omega) hf
  · exact .merged hpos (by omega)

theorem collapseMasks_fate (hl : l.Valid) (h : imageMasks.IsRun q first stop) (hn : n + 1 = (stop - first) / 4)
    (hsolid : ¬ paintsSolidUnit (Quartet.ofIndex q first).paint) (hc : l.minImageMasks ≤ n + 1)
    (hb : collapseMasks l (ofList q) first stop (n + 1) = .ok ⟨ofList q', n'⟩) :
    Fate l imageMasks q first stop q' n' := by
  have hmin := hl.imageMasks
  have hle : first ≤ stop := (Nat.le_add_right _ _).trans h.whole
  have hfit : first + 4 * (n + 1) ≤ stop := by omega
  have hquartets : quartets q first (n + 1) = Quartet.ofIndex q first :: quartets q (first + 4) n :=
    quartets_succ q first n
  have hstays : Stuck l (quartets q first (n + 1)) →
      Fate l imageMasks q first stop q (stop - (stop - first) % imageMasks.period) := by
    intro hstuck
    rw [sub_mod_eq _ hle]
    exact .stuck rfl (show Stuck l (quartets q first ((stop - first) / 4)) by rwa [← hn])
  have hhead : ∀ g ∈ (quartets q first (n + 1)).head?, ¬ paintsSolidUnit g.paint := by
    rw [hquartets]
    rintro g ⟨⟩
    exact hsolid
  cases hm : firstImage? (Quartet.ofIndex q first).paint with
  | none =>
    obtain ⟨rfl, rfl⟩ := eq_of_batch hb (collapseMasks_none h hfit hm)
    refine hstays ⟨by rwa [length_quartets], ⟨Quartet.ofIndex q' first, ?_, hm⟩, hhead, fun g gs' mask hg hmask ↦ ?_⟩
    · obtain ⟨m, hm'⟩ := Nat.exists_eq_add_one.2 (show 0 < l.maxImageMasks by omega)
      rw [hquartets, hm', List.take_succ_cons]
      exact List.mem_cons_self
    · rw [hquartets] at hg
      obtain ⟨rfl, -⟩ := List.cons_eq_cons.1 hg
      rw [hm] at hmask
      cases hmask
  | some mask =>
    by_cases hs : isUpright (Quartet.ofIndex q first).transform ∧
        l.minImageMasks ≤ sameMasks mask (Quartet.ofIndex q first) (quartets q (first + 4) n) + 1
    · have hsame := hl.sameImageMasks
      obtain ⟨m, he⟩ := Nat.exists_eq_add_one.2 (show
        0 < min (sameMasks mask (Quartet.ofIndex q first) (quartets q (first + 4) n) + 1) l.maxSameImageMasks by omega)
      have hmost := sameMasks_le mask (Quartet.ofIndex q first) (quartets q (first + 4) n)
      rw [length_quartets] at hmost
      obtain ⟨rfl, rfl⟩ := eq_of_batch hb (collapseMasks_repeat h hfit hm hs.1 hs.2 he.symm)
      exact .batched (not_mem_group (by simp)) (by omega)
    · obtain ⟨hnone, himageless⟩ | ⟨masks, hmasks, hmap⟩ :=
        mapM_firstImage? ((quartets q first (min (n + 1) l.maxImageMasks)).map (·.paint))
      · obtain ⟨rfl, rfl⟩ := eq_of_batch hb (collapseMasks_mixed h hfit hm hs rfl hnone)
        refine hstays ⟨by rwa [length_quartets], ?_, hhead, fun g gs' mask' hg hmask hupright ↦ ?_⟩
        · obtain ⟨paint, hpaint, hnone⟩ := himageless
          obtain ⟨g, hg, rfl⟩ := List.mem_map.1 hpaint
          refine ⟨g, ?_, hnone⟩
          rw [← take_quartets _ _ (Nat.min_le_left _ _)] at hg
          rw [← List.take_length (l := quartets q' first (n + 1)), List.take_take, length_quartets, Nat.min_comm]
          exact hg
        · rw [hquartets] at hg
          obtain ⟨rfl, rfl⟩ := List.cons_eq_cons.1 hg
          obtain rfl : mask = mask' := Option.some.inj (hm.symm.trans hmask)
          exact Nat.not_le.1 fun hrepeats ↦ hs ⟨hupright, hrepeats⟩
      · have hlength : masks.length = min (n + 1) l.maxImageMasks := by simpa using (congrArg List.length hmap).symm
        obtain ⟨rfl, rfl⟩ := eq_of_batch hb (collapseMasks_group h hfit hm hs rfl hmasks hlength)
        exact .batched (not_mem_group (by simp)) (by omega)

theorem not_solid_of_lt {k : Nat} (hk : k = solidMasks (quartets q first n)) (hlt : k < n) :
    ¬ paintsSolidUnit (Quartet.ofIndex q (first + 4 * k)).paint := by
  intro hsolid
  have hfront : ∀ g ∈ quartets q first k, paintsSolidUnit g.paint := by
    intro g hg
    rw [← take_quartets q first hlt.le] at hg
    subst hk
    exact solid_of_mem_take hg
  obtain ⟨m, rfl⟩ := Nat.exists_eq_add_of_lt hlt
  rw [Nat.add_assoc, quartets_add, quartets_succ, solidMasks, List.takeWhile_append_of_pos hfront,
    List.takeWhile_cons_of_pos (p := fun g : Quartet ↦ paintsSolidUnit g.paint) hsolid, List.length_append,
    List.length_cons, length_quartets] at hk
  omega

theorem ofIndex_retagged {k : Nat} (hfit : first + 4 * k ≤ q.length) (n : Nat) (hn : first + 4 * k ≤ n) :
    Quartet.ofIndex (retagged q first k) n = Quartet.ofIndex q n := by
  have hat (j : Nat) (hj : n ≤ j) : argsOf (retagged q first k) j = argsOf q j := by
    rw [argsOf, argsOf, getElem?_retagged hfit (hn.trans hj)]
  rw [Quartet.ofIndex, Quartet.ofIndex, hat n le_rfl, hat (n + 1) (by omega), hat (n + 2) (by omega),
    hat (n + 3) (by omega)]

theorem batchImageMasks_fate (hl : l.Valid) (h : imageMasks.IsRun q first stop)
    (hb : batchImageMasks l (ofList q) first stop = .ok ⟨ofList q', n'⟩) :
    Fate l imageMasks q first stop q' n' := by
  have hwhole : first + 4 ≤ stop := h.whole
  have hq := h.within
  obtain ⟨total, htotal⟩ : ∃ total, total = (stop - first) / 4 := ⟨_, rfl⟩
  obtain ⟨k, hk, hle⟩ := exists_solidMasks q first total
  have hfit : first + 4 * k ≤ q.length := by omega
  have hrest : k < total → Fate l imageMasks (retagged q first k) (first + 4 * k) stop q' n' := by
    intro hlt
    have hrun := h.drop_retagged (k := k) (by omega)
    have hcount : total - k = (stop - (first + 4 * k)) / 4 := by omega
    rw [batchImageMasks_eq h htotal hk] at hb
    split at hb
    · rename_i hfew
      obtain ⟨rfl, rfl⟩ := eq_of_batch hb rfl
      rw [sub_mod_eq _ (by omega)]
      exact .few rfl (show (stop - (first + 4 * k)) / 4 < l.minImageMasks by omega)
    · rename_i hmany
      obtain ⟨n, hn⟩ := Nat.exists_eq_add_one.2 (show 0 < total - k by omega)
      rw [hn] at hb
      refine collapseMasks_fate hl hrun (by omega) ?_ (by omega) hb
      rw [ofIndex_retagged hfit _ le_rfl]
      exact not_solid_of_lt hk hlt
  obtain hlt | rfl := hle.lt_or_eq
  · obtain rfl | hpos := Nat.eq_zero_or_pos k
    · have hfate := hrest hlt
      rwa [retagged_zero] at hfate
    · exact .solid hpos (by omega) (hrest hlt)
  · rw [batchImageMasks_eq h htotal hk, if_pos (by have := hl.imageMasks; omega)] at hb
    obtain ⟨rfl, rfl⟩ := eq_of_batch hb rfl
    have hnext : stop - (stop - (first + 4 * k)) % imageMasks.period = first + 4 * k := by
      rw [show imageMasks.period = 4 from rfl]
      omega
    rw [hnext]
    exact .allSolid (by omega) htotal

theorem mapM_firstImage?_none {paints : List (List Arg)} {paint : List Arg} (hp : paint ∈ paints)
    (hnone : firstImage? paint = none) : paints.mapM firstImage? = none := by
  obtain ⟨h, -⟩ | ⟨images, -, hmap⟩ := mapM_firstImage? paints
  · exact h
  · have hmem := List.mem_map_of_mem (f := firstImage?) hp
    rw [hmap, hnone] at hmem
    obtain ⟨_, -, h⟩ := List.mem_map.1 hmem
    cases h

theorem batchImageMasks_stuck (h : imageMasks.IsRun q first stop)
    (hs : Stuck l (quartets q first ((stop - first) / 4))) :
    batchImageMasks l (ofList q) first stop = .ok ⟨ofList q, stop - (stop - first) % imageMasks.period⟩ := by
  have hwhole : first + 4 ≤ stop := h.whole
  obtain ⟨n, hn⟩ := Nat.exists_eq_add_one.2 (show 0 < (stop - first) / 4 by omega)
  have hfit : first + 4 * (n + 1) ≤ stop := by omega
  have hmin := hs.long
  rw [hn, length_quartets] at hmin
  have hhead := hs.notSolid (Quartet.ofIndex q first) (by rw [hn, quartets_succ]; rfl)
  have hsolid : 0 = solidMasks (quartets q first (n + 1)) := by
    rw [quartets_succ, solidMasks_eq_zero _ hhead]
  rw [batchImageMasks_eq h hn.symm hsolid, if_neg (by omega), retagged_zero, Nat.mul_zero, Nat.add_zero, Nat.sub_zero]
  cases hm : firstImage? (Quartet.ofIndex q first).paint with
  | none => exact collapseMasks_none h hfit hm
  | some mask =>
    refine collapseMasks_mixed h hfit hm (fun hrepeats ↦ ?_) rfl ?_
    · have hfew := hs.fewRepeats _ _ mask (by rw [hn, quartets_succ]) hm hrepeats.1
      omega
    · obtain ⟨g, hg, hnone⟩ := hs.imageless
      rw [hn, List.take_eq_take_min, length_quartets, take_quartets _ _ (Nat.min_le_right _ _), Nat.min_comm] at hg
      exact mapM_firstImage?_none (List.mem_map_of_mem hg) hnone

theorem fate_of_batch (hl : l.Valid) (h : p.IsRun q first stop)
    (hb : p.batch l (ofList q) first stop = .ok ⟨ofList q', n'⟩) : Fate l p q first stop q' n' := by
  cases p with
  | inlineImages => exact batchInlineImages_fate hl h hb
  | imageMasks => exact batchImageMasks_fate hl h hb
  | images => exact batchImages_fate hl h hb
  | glyphRuns => exact batchGlyphRuns_fate hl h hb

end Pattern

end DisplayList
