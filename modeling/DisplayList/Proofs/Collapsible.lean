import DisplayList.Proofs.Leftovers

namespace DisplayList

open Columns (ofList)

/-- Somewhere in the queue `n` quartets paint one image, without skew and in one scale. -/
def HasImages (n : Nat) (q : List Instruction) : Prop :=
  ∃ (pre : List Instruction) (g : Quartet) (gs : List Quartet) (post : List Instruction),
    q = pre ++ (g :: gs).flatMap (Quartet.instructions .paintImage) ++ post ∧
      (g :: gs).length = n ∧ isUpright g.transform ∧
      ∀ g' ∈ gs, sameScale g.transform g'.transform ∧ sameSubject g.paint g'.paint

def HasInlineImages (n : Nat) (q : List Instruction) : Prop :=
  ∃ (pre : List Instruction) (gs : List Quartet) (post : List Instruction),
    q = pre ++ gs.flatMap (Quartet.instructions .paintInlineImage) ++ post ∧
      gs.length = n ∧ ∀ g ∈ gs, paintsPackable g.paint

def HasMasks (n : Nat) (q : List Instruction) : Prop :=
  ∃ (pre : List Instruction) (gs : List Quartet) (post : List Instruction),
    q = pre ++ gs.flatMap (Quartet.instructions .paintImageMask) ++ post ∧
      gs.length = n ∧ ∀ g ∈ gs, (firstImage? g.paint).isSome

def HasTexts (n : Nat) (q : List Instruction) : Prop :=
  ∃ (pre : List Instruction) (w : Wrapper) (ws : List Wrapper) (post : List Instruction),
    q = pre ++ (w :: ws).flatMap Wrapper.instructions ++ post ∧
      (w :: ws).length = n ∧ ∀ w' ∈ ws, Arg.sharesWithAll w.font w'.font

namespace Pattern

variable {l : Limits} {p : Pattern} {pre post q : List Instruction} {tag : Tag} {g : Quartet} {gs : List Quartet}
  {w : Wrapper} {ws : List Wrapper} {first k n o : Nat}

theorem isRun_of_groups (hpos : 0 < n) (hgroups : ∀ k < n, p.GroupAt q (first + p.period * k))
    (hopens : p.opens q first)
    (hagrees : ∀ k < n, 0 < k → ∀ o < p.period, p.agrees q first (first + p.period * k + o)) :
    p.IsRun q first (first + p.period * n) := by
  have hperiod := p.period_pos
  have hplace (i : Nat) (hi : first ≤ i) (his : i < first + p.period * n) :
      ∃ k < n, ∃ o < p.period, i = first + p.period * k + o := by
    have hdiv := Nat.div_add_mod (i - first) p.period
    exact ⟨(i - first) / p.period, Nat.div_lt_of_lt_mul (by omega), (i - first) % p.period, Nat.mod_lt _ hperiod,
      by omega⟩
  refine ⟨?_, ?_, fun i hi his ↦ ?_, hopens, fun i hi his ↦ ?_⟩
  · have := Nat.le_mul_of_pos_right p.period hpos
    omega
  · obtain ⟨n, rfl⟩ := Nat.exists_eq_add_one.2 hpos
    have := (hgroups n (Nat.lt_succ_self n)).within
    rw [Nat.mul_succ]
    omega
  · obtain ⟨k, hk, o, ho, rfl⟩ := hplace i hi his
    rw [TagFits, offset_eq p ho]
    exact hgroups k hk o ho
  · obtain ⟨k, hk, o, ho, rfl⟩ := hplace i (by omega) his
    refine hagrees k hk (Nat.pos_of_ne_zero fun hzero ↦ ?_) o ho
    subst hzero
    omega

section Quartets

theorem getElem?_quartet (pre post : List Instruction) (tag : Tag) (hk : k < gs.length) (ho : o < 4) :
    (pre ++ gs.flatMap (Quartet.instructions tag) ++ post)[pre.length + 4 * k + o]? = (gs[k].instructions tag)[o]? := by
  have hfour (g : Quartet) : (g.instructions tag).length = 4 := rfl
  rw [Nat.add_assoc, getElem?_middle _ _ (by rw [length_instructions]; omega), getElem?_flatMap hfour gs k ho,
    List.getElem?_eq_getElem hk]
  rfl

theorem ofIndex_quartet (pre post : List Instruction) (tag : Tag) (hk : k < gs.length) :
    Quartet.ofIndex (pre ++ gs.flatMap (Quartet.instructions tag) ++ post) (pre.length + 4 * k) = gs[k] := by
  have hat {o : Nat} (ho : o < 4) := getElem?_quartet pre post tag hk ho
  have hzero := hat (show 0 < 4 by omega)
  rw [Nat.add_zero] at hzero
  rw [Quartet.ofIndex, argsOf, argsOf, argsOf, argsOf, hzero, hat (show 1 < 4 by omega), hat (show 2 < 4 by omega),
    hat (show 3 < 4 by omega)]
  rfl

theorem quartets_middle (pre post : List Instruction) (tag : Tag) (gs : List Quartet) :
    quartets (pre ++ gs.flatMap (Quartet.instructions tag) ++ post) pre.length gs.length = gs := by
  refine List.ext_getElem (length_quartets _ _ _) fun k hk hk' ↦ ?_
  simp only [quartets, List.getElem_map, List.getElem_range]
  exact ofIndex_quartet pre post tag hk'

theorem groupAt_quartet (hp : p.group = quartet tag) (hk : k < gs.length) :
    p.GroupAt (pre ++ gs.flatMap (Quartet.instructions tag) ++ post) (pre.length + 4 * k) := by
  intro o ho
  rw [period, hp] at ho
  rw [getElem?_quartet pre post tag hk ho, hp, ← List.getElem?_map]
  rfl

theorem isRun_imageMasks (pre post : List Instruction) (hpos : 0 < gs.length) :
    imageMasks.IsRun (pre ++ gs.flatMap (Quartet.instructions .paintImageMask) ++ post) pre.length
      (pre.length + imageMasks.period * gs.length) :=
  isRun_of_groups hpos (fun _ hk ↦ groupAt_quartet rfl hk) rfl fun _ _ _ _ _ ↦ rfl

theorem isRun_inlineImages (pre post : List Instruction) (hpos : 0 < gs.length) (h : ∀ g ∈ gs, paintsPackable g.paint) :
    inlineImages.IsRun (pre ++ gs.flatMap (Quartet.instructions .paintInlineImage) ++ post) pre.length
      (pre.length + inlineImages.period * gs.length) := by
  have hpaint (k : Nat) (hk : k < gs.length) : paintsPackable
      (argsOf (pre ++ gs.flatMap (Quartet.instructions .paintInlineImage) ++ post) (pre.length + 4 * k + 2)) := by
    have hquartet := ofIndex_quartet pre post .paintInlineImage hk
    have hmem := h gs[k] (List.getElem_mem hk)
    rwa [← hquartet] at hmem
  refine isRun_of_groups hpos (fun _ hk ↦ groupAt_quartet rfl hk) (hpaint 0 hpos) fun k hk _ o ho ↦ ?_
  unfold agrees
  rw [offset_eq inlineImages ho]
  obtain rfl | rfl | rfl | rfl : o = 0 ∨ o = 1 ∨ o = 2 ∨ o = 3 := by change o < 4 at ho; omega
  · rfl
  · rfl
  · exact hpaint k hk
  · rfl

theorem isRun_images (pre post : List Instruction) (hu : isUpright g.transform)
    (h : ∀ g' ∈ gs, sameScale g.transform g'.transform ∧ sameSubject g.paint g'.paint) :
    images.IsRun (pre ++ (g :: gs).flatMap (Quartet.instructions .paintImage) ++ post) pre.length
      (pre.length + images.period * (g :: gs).length) := by
  have hfirst := ofIndex_quartet pre post .paintImage (show 0 < (g :: gs).length from Nat.succ_pos _)
  rw [Nat.mul_zero, Nat.add_zero, List.getElem_cons_zero] at hfirst
  refine isRun_of_groups (Nat.succ_pos _) (fun _ hk ↦ groupAt_quartet rfl hk) ?_ fun k hk hpos o ho ↦ ?_
  · rw [← hfirst] at hu
    exact hu
  obtain ⟨k, rfl⟩ := Nat.exists_eq_add_one.2 hpos
  have hk' : k < gs.length := Nat.lt_of_succ_lt_succ hk
  have hother := ofIndex_quartet pre post .paintImage hk
  have hsame := h gs[k] (List.getElem_mem _)
  rw [List.getElem_cons_succ] at hother
  rw [← hfirst, ← hother] at hsame
  unfold agrees
  rw [offset_eq images ho]
  obtain rfl | rfl | rfl | rfl : o = 0 ∨ o = 1 ∨ o = 2 ∨ o = 3 := by change o < 4 at ho; omega
  · rfl
  · exact hsame.1
  · exact hsame.2
  · rfl

end Quartets

section Wrappers

theorem getElem?_wrapper (pre post : List Instruction) (hk : k < ws.length) (ho : o < 5) :
    (pre ++ ws.flatMap Wrapper.instructions ++ post)[pre.length + 5 * k + o]? = ws[k].instructions[o]? := by
  have hfive (w : Wrapper) : w.instructions.length = 5 := rfl
  rw [Nat.add_assoc, getElem?_middle _ _ (by rw [length_flatMap_const hfive]; omega), getElem?_flatMap hfive ws k ho,
    List.getElem?_eq_getElem hk]
  rfl

theorem groupAt_wrapper (pre post : List Instruction) (hk : k < ws.length) :
    glyphRuns.GroupAt (pre ++ ws.flatMap Wrapper.instructions ++ post) (pre.length + 5 * k) := by
  intro o ho
  rw [getElem?_wrapper pre post hk ho, ← List.getElem?_map]
  rfl

theorem isRun_glyphRuns (pre post : List Instruction) (h : ∀ w' ∈ ws, Arg.sharesWithAll w.font w'.font) :
    glyphRuns.IsRun (pre ++ (w :: ws).flatMap Wrapper.instructions ++ post) pre.length
      (pre.length + glyphRuns.period * (w :: ws).length) := by
  have hfont (k : Nat) (hk : k < (w :: ws).length) :
      argsOf (pre ++ (w :: ws).flatMap Wrapper.instructions ++ post) (pre.length + 5 * k + 1) = (w :: ws)[k].font := by
    rw [argsOf, getElem?_wrapper pre post hk (show 1 < 5 by omega)]
    rfl
  refine isRun_of_groups (Nat.succ_pos _) (fun _ hk ↦ groupAt_wrapper pre post hk) rfl fun k hk hpos o ho ↦ ?_
  obtain ⟨k, rfl⟩ := Nat.exists_eq_add_one.2 hpos
  have hk' : k < ws.length := Nat.lt_of_succ_lt_succ hk
  have hsame := h ws[k] (List.getElem_mem _)
  have hfirst := hfont 0 (Nat.succ_pos _)
  rw [Nat.mul_zero, Nat.add_zero] at hfirst
  unfold agrees
  rw [offset_eq glyphRuns ho]
  obtain rfl | rfl | rfl | rfl | rfl : o = 0 ∨ o = 1 ∨ o = 2 ∨ o = 3 ∨ o = 4 := by change o < 5 at ho; omega
  · rfl
  · change Arg.sharesWithAll (argsOf _ (pre.length + 1)) (argsOf _ (pre.length + 5 * (k + 1) + 1))
    rw [hfirst, hfont (k + 1) hk]
    exact hsame
  · rfl
  · rfl
  · rfl

end Wrappers

end Pattern

namespace Optimizer

open Pattern

variable {l : Limits} {is pre post : List Instruction} {gs : List Quartet}

/-- No images, no images given inline and no texts are left of which enough stand together to be batched. -/
theorem none_left_to_batch (hl : l.violation? = none) (is : List Instruction) :
    ¬ HasImages l.minImages (optimized l is).toList ∧
      ¬ HasInlineImages l.minInlineImages (optimized l is).toList ∧
      ¬ HasTexts (max 2 l.minGlyphRuns) (optimized l is).toList := by
  have hvalid := Limits.violation?_eq_none_iff.1 hl
  obtain ⟨q, hq, hstuck⟩ := exists_stuck hl is
  have hleft {p : Pattern} {i : Nat} (hlong : p.LongAt l q i) : p = imageMasks := (hstuck p i hlong).1
  rw [hq, Columns.toList_ofList]
  refine ⟨?_, ?_, ?_⟩
  · rintro ⟨pre, g, gs, post, rfl, hlength, hu, h⟩
    have hrun := isRun_images pre post hu h
    rw [hlength] at hrun
    cases hleft (p := images) hrun
  · rintro ⟨pre, gs, post, rfl, hlength, h⟩
    have hrun := isRun_inlineImages pre post (hlength ▸ hvalid.inlineImages.1) h
    rw [hlength] at hrun
    cases hleft (p := inlineImages) hrun
  · rintro ⟨pre, w, ws, post, rfl, hlength, h⟩
    have hrun := isRun_glyphRuns pre post h
    rw [hlength] at hrun
    cases hleft (p := glyphRuns) hrun

theorem none_left_to_batch_scattered :
    ({} : Limits).violation? = none ∧
      ¬ HasImages 3 (optimized {} scattered).toList ∧ ¬ HasInlineImages 10 (optimized {} scattered).toList ∧
      ¬ HasTexts 3 (optimized {} scattered).toList :=
  ⟨by decide, none_left_to_batch (by decide) scattered⟩

theorem optimized_stuck (hl : l.violation? = none) (hs : Stuck l gs) :
    (optimized l (gs.flatMap (Quartet.instructions .paintImageMask))).toList =
      gs.flatMap (Quartet.instructions .paintImageMask) := by
  have hpos : 0 < gs.length := (Limits.violation?_eq_none_iff.1 hl).imageMasks.1.trans_le hs.long
  obtain ⟨is, his⟩ : ∃ is, is = gs.flatMap (Quartet.instructions .paintImageMask) := ⟨_, rfl⟩
  have hlength : is.length = 4 * gs.length := by rw [his, length_instructions]
  have hrun : imageMasks.IsRun is 0 is.length := by
    have h := isRun_imageMasks [] [] hpos
    rw [List.nil_append, List.append_nil, List.length_nil, Nat.zero_add, ← his] at h
    rwa [hlength]
  have hquartets : quartets is 0 ((is.length - 0) / 4) = gs := by
    have h := quartets_middle [] [] .paintImageMask gs
    rw [List.nil_append, List.append_nil, List.length_nil, ← his] at h
    rw [Nat.sub_zero, hlength, Nat.mul_div_cancel_left _ (by omega), h]
  obtain ⟨q, n, hq, hturns, hrest⟩ := exists_turns hl is
  rw [← his, hq, Columns.toList_ofList]
  obtain hnone | ⟨s, ⟨p, first, stop, hturn⟩, hturns⟩ := hturns.cases_head
  · exact (Prod.mk.inj hnone).1.symm
  obtain rfl : first = 0 := Nat.eq_zero_of_not_pos fun hlt ↦ hturn.earliest imageMasks 0 le_rfl hlt hrun.opensAt
  obtain rfl : p = imageMasks := (hturn.run.opensAt.group.eq_of_lt hrun.opensAt.group le_rfl
    (by rw [Nat.zero_add]; exact p.period_pos)).2
  obtain rfl : stop = is.length := by
    refine hturn.run.within.antisymm (Nat.not_lt.1 fun hlt ↦ hturn.ends ⟨hrun.tags stop (Nat.zero_le _) hlt, rfl⟩)
  obtain ⟨hs₁, hn⟩ := eq_of_batch hturn.batch (batchImageMasks_stuck hrun (hquartets ▸ hs))
  have hstop : s.2 = is.length := by
    rw [hn, sub_mod_eq _ (Nat.zero_le _)]
    change 0 + 4 * ((is.length - 0) / 4) = is.length
    omega
  obtain rfl | ⟨s', ⟨p, first, stop, hturn⟩, -⟩ := hturns.cases_head
  · exact hs₁
  · have hle := hturn.le
    have hwhole := hturn.run.whole
    have hwithin := hturn.run.within
    have := p.period_pos
    rw [hs₁] at hwithin
    dsimp only at hwithin
    omega

def namedMask : Quartet :=
  ⟨[], [.int 1, .int 0, .int 0, .int 1, .int 5, .int 6], [.name "stencil"], []⟩

def imageMasksInRow : List Quartet :=
  (List.range 10).map fun k ↦
    ⟨[], [.int 1, .int 0, .int 0, .int 1, .int (Int.ofNat k), .int 0],
      [.image ⟨some "image", ⟨2, 1, .gray1, ⟨#[0]⟩, false⟩⟩], []⟩

theorem stuck_namedMask : Stuck {} (namedMask :: imageMasksInRow) := by
  refine ⟨by decide, ⟨namedMask, List.mem_cons_self, rfl⟩, ?_, ?_⟩
  · rintro g ⟨⟩
    decide
  · rintro g gs' mask hg hmask
    obtain ⟨rfl, -⟩ := List.cons_eq_cons.1 hg
    cases hmask

theorem optimized_namedMask :
    (optimized {} ((namedMask :: imageMasksInRow).flatMap (Quartet.instructions .paintImageMask))).toList =
      namedMask.instructions .paintImageMask ++ imageMasksInRow.flatMap (Quartet.instructions .paintImageMask) ++
        [] := by
  rw [optimized_stuck (by decide) stuck_namedMask, List.flatMap_cons, List.append_nil]

/-- Masks that are left, though there are enough of them, are among masks that are stuck. -/
theorem masks_left_stuck (hl : l.violation? = none)
    (hq : (optimized l is).toList = pre ++ gs.flatMap (Quartet.instructions .paintImageMask) ++ post)
    (hlength : gs.length = l.minImageMasks) :
    ∃ (front : List Instruction) (hs ks : List Quartet) (rest : List Instruction),
      pre = front ++ hs.flatMap (Quartet.instructions .paintImageMask) ∧
      post = ks.flatMap (Quartet.instructions .paintImageMask) ++ rest ∧ Stuck l (hs ++ gs ++ ks) := by
  have hvalid := Limits.violation?_eq_none_iff.1 hl
  have hpos : 0 < gs.length := hlength ▸ hvalid.imageMasks.1
  obtain ⟨q, hopt, hleft⟩ := exists_stuck hl is
  rw [hopt, Columns.toList_ofList] at hq
  have hrun : imageMasks.IsRun q pre.length (pre.length + 4 * gs.length) := hq ▸ isRun_imageMasks pre post hpos
  have hlong : imageMasks.LongAt l q pre.length := by rwa [hlength] at hrun
  obtain ⟨-, start, k, htags, hle, hcovers, hstuck⟩ := hleft imageMasks pre.length hlong
  rw [← hlength] at hcovers
  obtain ⟨-, m, -, hm⟩ := exists_of_groupAt (p := imageMasks) (n := k) htags le_rfl hrun.opensAt.group hle
    (show pre.length < start + 4 * k by omega)
  replace hm : pre.length = start + 4 * m := hm
  obtain ⟨r, rfl⟩ := Nat.exists_eq_add_of_le (show m + gs.length ≤ k by omega)
  -- The stuck masks are those before the masks in question, these, and those after them.
  have hgs : quartets q (start + 4 * m) gs.length = gs := by rw [← hm, hq, quartets_middle]
  have hfront := stretch_eq_quartets (p := imageMasks) (n := m) rfl htags (by omega)
  have hrest : stretch q (start + 4 * (m + gs.length)) (start + 4 * (m + gs.length) + 4 * r) =
      (quartets q (start + 4 * (m + gs.length)) r).flatMap (Quartet.instructions .paintImageMask) :=
    stretch_eq_quartets (p := imageMasks) rfl (tagFits_shift htags (m + gs.length)) (by omega)
  have hstop : start + 4 * (m + gs.length) = pre.length + 4 * gs.length := by omega
  rw [quartets_add, quartets_add, hgs] at hstuck
  refine ⟨q.take start, _, _, q.drop (start + 4 * (m + gs.length) + 4 * r), ?_, ?_, hstuck⟩
  · rw [← hfront, take_append_stretch (Nat.le_add_right _ _), ← hm, hq, List.append_assoc, List.take_left]
  · have hpost : q.drop (start + 4 * (m + gs.length)) = post := by
      rw [hq]
      exact List.drop_left' (by rw [List.length_append, length_instructions, hstop])
    rw [← hpost, ← hrest, stretch_append_drop (Nat.le_add_right _ _)]

theorem masks_left_stuck_namedMask :
    ({} : Limits).violation? = none ∧
      (optimized {} ((namedMask :: imageMasksInRow).flatMap (Quartet.instructions .paintImageMask))).toList =
        namedMask.instructions .paintImageMask ++ imageMasksInRow.flatMap (Quartet.instructions .paintImageMask) ++ [] ∧
      imageMasksInRow.length = ({} : Limits).minImageMasks ∧
      ∃ (front : List Instruction) (hs ks : List Quartet) (rest : List Instruction),
        namedMask.instructions .paintImageMask = front ++ hs.flatMap (Quartet.instructions .paintImageMask) ∧
        [] = ks.flatMap (Quartet.instructions .paintImageMask) ++ rest ∧ Stuck {} (hs ++ imageMasksInRow ++ ks) :=
  ⟨by decide, optimized_namedMask, rfl, masks_left_stuck (by decide) optimized_namedMask rfl⟩

/-- Ten masks stay, though each of them is an image: they follow a mask that is none. -/
theorem masks_held_up :
    ({} : Limits).violation? = none ∧ HasMasks ({} : Limits).minImageMasks
      (optimized {} ((namedMask :: imageMasksInRow).flatMap (Quartet.instructions .paintImageMask))).toList := by
  refine ⟨by decide, namedMask.instructions .paintImageMask, imageMasksInRow, [], optimized_namedMask, rfl,
    fun g hg ↦ ?_⟩
  obtain ⟨k, -, rfl⟩ := List.mem_map.1 hg
  rfl

end Optimizer

end DisplayList
