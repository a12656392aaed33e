import DisplayList.Proofs.Batching
import Mathlib.Data.List.TakeWhile

namespace DisplayList

open Columns (ofList)

namespace Pattern

variable {l : Limits} {q : List Instruction} {first stop n i : Nat} {gs : List Quartet}

theorem head?_of_firstImage? {paint : List Arg} {mask : Resource} (h : firstImage? paint = some mask) :
    paint.head? = some (.image mask) := by
  obtain ⟨a, ha, hm⟩ := Option.bind_eq_some_iff.1 h
  cases a with
  | image r =>
    obtain rfl : r = mask := Option.some.inj hm
    exact ha
  | _ => cases hm

theorem headD_of_firstImage? {paint : List Arg} {mask : Resource} (h : firstImage? paint = some mask) :
    paint.headD .null = .image mask := by
  rw [List.headD_eq_head?_getD, head?_of_firstImage? h]
  rfl

def paintsSame (mask : Resource) (g g' : Quartet) : Bool :=
  g'.paint.head?.any (·.sharesWith (.image mask)) && sameScale g.transform g'.transform

def sameMasks (mask : Resource) (g : Quartet) (gs : List Quartet) : Nat := (gs.takeWhile (paintsSame mask g)).length

theorem repeats_eq (mask : Resource) (g : Quartet) (gs : List Quartet) :
    repeats mask ((g :: gs).map (·.transform)) ((g :: gs).map (·.paint)) = sameMasks mask g gs + 1 := by
  have hzip : (((g :: gs).map (·.transform)).zip ((g :: gs).map (·.paint))).tail =
      gs.map fun g' ↦ (g'.transform, g'.paint) := by
    rw [List.zip_map', List.map_cons, List.tail_cons]
  rw [repeats, hzip, List.takeWhile_map, List.length_map]
  rfl

theorem alike_of_le_sameMasks {mask : Resource} {g : Quartet} (hm : firstImage? g.paint = some mask)
    (hn : n ≤ sameMasks mask g gs) {g' : Quartet} (hg : g' ∈ gs.take n) :
    sameScale g.transform g'.transform ∧ sameSubject g.paint g'.paint := by
  have hinit := List.prefix_iff_eq_take.1 (List.takeWhile_prefix (l := gs) (paintsSame mask g))
  have hmem : g' ∈ gs.takeWhile (paintsSame mask g) := by
    rw [hinit]
    rw [← Nat.min_eq_left hn, ← List.take_take] at hg
    exact List.mem_of_mem_take hg
  have hsame := List.mem_takeWhile_imp hmem
  rw [paintsSame, Bool.and_eq_true, Option.any_eq_true] at hsame
  obtain ⟨⟨a, ha, hshares⟩, hscale⟩ := hsame
  refine ⟨hscale, ?_⟩
  rw [sameSubject, head?_of_firstImage? hm, ha]
  exact hshares

theorem sameMasks_le (mask : Resource) (g : Quartet) (gs : List Quartet) : sameMasks mask g gs ≤ gs.length :=
  (List.takeWhile_prefix _).length_le

section Collapse

variable {mask : Resource} {m : Nat}

theorem collapseMasks_none (h : imageMasks.IsRun q first stop) (hn : first + 4 * (n + 1) ≤ stop)
    (hm : firstImage? (Quartet.ofIndex q first).paint = none) :
    collapseMasks l (ofList q) first stop (n + 1) = .ok ⟨ofList q, stop - (stop - first) % imageMasks.period⟩ := by
  have hq := h.within
  have hm' : firstImage? (argsOf q (first + 2)) = none := hm
  rw [collapseMasks, transforms_eq (by omega), ok_bind, paints_eq (by omega), ok_bind, argsAt_eq (by omega), ok_bind,
    hm',
    ← leave_eq _ ((Nat.le_add_right _ _).trans h.whole)]

theorem collapseMasks_some (h : first + 4 * (n + 1) ≤ q.length)
    (hm : firstImage? (Quartet.ofIndex q first).paint = some mask) :
    collapseMasks l (ofList q) first stop (n + 1) =
      if isUpright (Quartet.ofIndex q first).transform &&
          l.minImageMasks ≤ sameMasks mask (Quartet.ofIndex q first) (quartets q (first + 4) n) + 1 then
        let m := min (sameMasks mask (Quartet.ofIndex q first) (quartets q (first + 4) n) + 1) l.maxSameImageMasks
        collapse (ofList q) first m .paintImageMaskRepeat
          (repeatArgs (.image mask) ((quartets q first m).map (·.transform)))
      else
        let m := min (n + 1) l.maxImageMasks
        (((quartets q first m).map (·.paint)).mapM firstImage?).elim (imageMasks.leave (ofList q) first stop)
          fun masks ↦
          collapse (ofList q) first m .paintImageMaskGroup
            [.masks (masks.zipWith MaskEntry.mk ((quartets q first (n + 1)).map (·.transform)))] := by
  have hm' : firstImage? (argsOf q (first + 2)) = some mask := hm
  have hsame : repeats mask ((quartets q first (n + 1)).map (·.transform)) ((quartets q first (n + 1)).map (·.paint)) =
      sameMasks mask (Quartet.ofIndex q first) (quartets q (first + 4) n) + 1 := by
    rw [quartets_succ, repeats_eq]
  have hle : sameMasks mask (Quartet.ofIndex q first) (quartets q (first + 4) n) + 1 ≤ n + 1 :=
    Nat.succ_le_succ ((sameMasks_le _ _ _).trans (length_quartets ..).le)
  have hhead : ((quartets q first (n + 1)).map (·.transform)).headD [] = (Quartet.ofIndex q first).transform := by
    rw [quartets_succ]
    rfl
  rw [collapseMasks, transforms_eq h, ok_bind, paints_eq h, ok_bind, argsAt_eq (by omega), ok_bind, hm']
  dsimp only
  rw [hsame, hhead, ← List.map_take, ← List.map_take, take_quartets q first (Nat.min_le_left _ _),
    take_quartets q first ((Nat.min_le_left _ _).trans hle)]
  congr 1
  cases ((quartets q first (min (n + 1) l.maxImageMasks)).map (·.paint)).mapM firstImage? <;> rfl

theorem collapseMasks_repeat (h : imageMasks.IsRun q first stop) (hn : first + 4 * (n + 1) ≤ stop)
    (hm : firstImage? (Quartet.ofIndex q first).paint = some mask)
    (hu : isUpright (Quartet.ofIndex q first).transform)
    (hs : l.minImageMasks ≤ sameMasks mask (Quartet.ofIndex q first) (quartets q (first + 4) n) + 1)
    (he : m + 1 = min (sameMasks mask (Quartet.ofIndex q first) (quartets q (first + 4) n) + 1) l.maxSameImageMasks) :
    collapseMasks l (ofList q) first stop (n + 1) =
      .ok ⟨ofList (q.take first ++
        [⟨.paintImageMaskRepeat, (Quartet.ofIndex q first).repeated (quartets q (first + 4) m)⟩] ++
        q.drop (first + 4 * (m + 1))), first + 1⟩ := by
  have hle := sameMasks_le mask (Quartet.ofIndex q first) (quartets q (first + 4) n)
  rw [length_quartets] at hle
  have hq := h.within
  rw [collapseMasks_some (hn.trans h.within) hm]
  dsimp only
  rw [hu, decide_eq_true hs, Bool.true_and, if_pos rfl, ← he, quartets_succ, ← headD_of_firstImage? hm, repeatArgs_eq,
    collapse_eq (by omega)]

theorem collapseMasks_group (h : imageMasks.IsRun q first stop) (hn : first + 4 * (n + 1) ≤ stop)
    (hm : firstImage? (Quartet.ofIndex q first).paint = some mask)
    (hs : ¬ (isUpright (Quartet.ofIndex q first).transform ∧
      l.minImageMasks ≤ sameMasks mask (Quartet.ofIndex q first) (quartets q (first + 4) n) + 1))
    {masks : List Resource} (he : m = min (n + 1) l.maxImageMasks)
    (hmasks : ((quartets q first m).map (·.paint)).mapM firstImage? = some masks) (hlength : masks.length = m) :
    collapseMasks l (ofList q) first stop (n + 1) =
      .ok ⟨ofList (q.take first ++
        [⟨.paintImageMaskGroup, [.masks (masks.zipWith (fun mask g ↦ ⟨mask, g.transform⟩) (quartets q first m))]⟩] ++
        q.drop (first + 4 * m)), first + 1⟩ := by
  have hq := h.within
  have hzip : masks.zipWith MaskEntry.mk ((quartets q first (n + 1)).map (·.transform)) =
      masks.zipWith (fun mask g ↦ ⟨mask, g.transform⟩) (quartets q first m) := by
    rw [List.zipWith_map_right, List.zipWith_eq_zipWith_take_min, length_quartets,
      take_quartets q first (Nat.min_le_right _ _), hlength, Nat.min_eq_left (show m ≤ n + 1 by omega),
      List.take_of_length_le hlength.le]
  rw [collapseMasks_some (hn.trans h.within) hm]
  dsimp only
  rw [if_neg (by simpa using hs), ← he, hmasks, Option.elim_some, hzip, collapse_eq (by omega)]

theorem collapseMasks_mixed (h : imageMasks.IsRun q first stop) (hn : first + 4 * (n + 1) ≤ stop)
    (hm : firstImage? (Quartet.ofIndex q first).paint = some mask)
    (hs : ¬ (isUpright (Quartet.ofIndex q first).transform ∧
      l.minImageMasks ≤ sameMasks mask (Quartet.ofIndex q first) (quartets q (first + 4) n) + 1))
    (he : m = min (n + 1) l.maxImageMasks) (hmasks : ((quartets q first m).map (·.paint)).mapM firstImage? = none) :
    collapseMasks l (ofList q) first stop (n + 1) = .ok ⟨ofList q, stop - (stop - first) % imageMasks.period⟩ := by
  rw [collapseMasks_some (hn.trans h.within) hm]
  dsimp only
  rw [if_neg (by simpa using hs), ← he, hmasks]
  exact leave_eq _ ((Nat.le_add_right _ _).trans h.whole)

theorem collapseMasks_gives (hl : l.Valid) (h : imageMasks.IsRun q first stop) (hn : first + 4 * (n + 1) ≤ stop)
    (hc : l.minImageMasks ≤ n + 1) :
    ∃ b next form, collapseMasks l (ofList q) first stop (n + 1) = .ok b ∧ Gives l q first stop b first next form := by
  have hleave := gives_leave l h.whole h.within
  have hmin := hl.imageMasks
  have hsame := hl.sameImageMasks
  cases hm : firstImage? (Quartet.ofIndex q first).paint with
  | none => exact ⟨_, _, _, collapseMasks_none h hn hm, hleave⟩
  | some mask =>
    have hle := sameMasks_le mask (Quartet.ofIndex q first) (quartets q (first + 4) n)
    rw [length_quartets] at hle
    by_cases hs : isUpright (Quartet.ofIndex q first).transform ∧
        l.minImageMasks ≤ sameMasks mask (Quartet.ofIndex q first) (quartets q (first + 4) n) + 1
    · obtain ⟨m, he⟩ := Nat.exists_eq_add_one.2 (show
        0 < min (sameMasks mask (Quartet.ofIndex q first) (quartets q (first + 4) n) + 1) l.maxSameImageMasks by omega)
      refine ⟨_, _, _, collapseMasks_repeat h hn hm hs.1 hs.2 he.symm, gives_collapse rfl h m.succ_pos (by omega) ?_⟩
      have halike (g : Quartet) (hg : g ∈ quartets q (first + 4) m) := by
        rw [← take_quartets q (first + 4) (show m ≤ n by omega)] at hg
        exact alike_of_le_sameMasks hm (by omega) hg
      rw [quartets_succ]
      refine .of_rewrite hl (.maskRepeat mask _ _ ?_ ?_ hm hs.1 (fun g hg ↦ (halike g hg).1) fun g hg ↦ (halike g hg).2)
      · rw [List.length_cons, length_quartets]; omega
      · rw [List.length_cons, length_quartets]; omega
    · obtain ⟨hnone, -⟩ | ⟨masks, hmasks, hmap⟩ :=
        mapM_firstImage? ((quartets q first (min (n + 1) l.maxImageMasks)).map (·.paint))
      · exact ⟨_, _, _, collapseMasks_mixed h hn hm hs rfl hnone, hleave⟩
      · have hlength : masks.length = min (n + 1) l.maxImageMasks := by simpa using (congrArg List.length hmap).symm
        refine ⟨_, _, _, collapseMasks_group h hn hm hs rfl hmasks hlength,
          gives_collapse rfl h (by omega) (by omega) ?_⟩
        rw [List.map_map] at hmap
        refine .of_rewrite hl (.maskGroup _ masks ?_ ?_ hmap)
        · rw [length_quartets]; omega
        · rw [length_quartets]; omega

end Collapse

section Solid

def retagged (q : List Instruction) (first k : Nat) : List Instruction :=
  q.take first ++ (quartets q first k).flatMap (Quartet.instructions .paintSolidMask) ++ q.drop (first + 4 * k)

variable {k : Nat}

theorem retagged_zero (q : List Instruction) (first : Nat) : retagged q first 0 = q := by simp [retagged, quartets]

theorem length_instructions (tag : Tag) (gs : List Quartet) :
    (gs.flatMap (Quartet.instructions tag)).length = 4 * gs.length := by
  induction gs with
  | nil => rfl
  | cons g gs ih =>
    rw [List.flatMap_cons, List.length_append, ih, List.length_cons]
    simp only [Quartet.instructions, List.length_cons, List.length_nil]
    omega

theorem take_retagged (h : first + 4 * k ≤ q.length) : (retagged q first k).take (first + 4 * k) =
    q.take first ++ (quartets q first k).flatMap (Quartet.instructions .paintSolidMask) := by
  refine List.take_left' ?_
  rw [List.length_append, List.length_take, length_instructions, length_quartets]
  omega

theorem drop_retagged (h : first + 4 * k ≤ q.length) (hi : first + 4 * k ≤ i) :
    (retagged q first k).drop i = q.drop i := by
  have hd : (retagged q first k).drop (first + 4 * k) = q.drop (first + 4 * k) := by
    refine List.drop_left' ?_
    rw [List.length_append, List.length_take, length_instructions, length_quartets]
    omega
  rw [← Nat.add_sub_cancel' hi, ← List.drop_drop, hd, List.drop_drop]

theorem length_retagged (h : first + 4 * k ≤ q.length) : (retagged q first k).length = q.length := by
  rw [retagged, List.length_append, List.length_append, length_instructions, length_quartets, List.length_take,
    List.length_drop]
  omega

theorem getElem?_retagged (h : first + 4 * k ≤ q.length) (hi : first + 4 * k ≤ i) :
    (retagged q first k)[i]? = q[i]? := by
  have hd := congrArg (·[0]?) (drop_retagged h hi)
  simpa using hd

theorem retagAt_retagged (h : ∀ i, first ≤ i → i < stop → imageMasks.TagFits q first i)
    (hk : first + 4 * (k + 1) ≤ stop) (hq : stop ≤ q.length) :
    (ofList (retagged q first k)).retagAt (first + 4 * k + 2) .paintSolidMask =
      .ok (ofList (retagged q first (k + 1))) := by
  have hshift := tagFits_shift h k
  have hdrop := drop_eq_quartet (q := q) (i := first + 4 * k) (p := imageMasks) rfl fun j hj hj' ↦
    hshift j hj (by omega)
  let g := Quartet.ofIndex q (first + 4 * k)
  let pre := q.take first ++ (quartets q first k).flatMap (Quartet.instructions .paintSolidMask) ++
    [⟨.save, g.save⟩, ⟨.transform, g.transform⟩]
  let post := ⟨.restore, g.restore⟩ :: q.drop (first + 4 * (k + 1))
  have hpre : pre.length = first + 4 * k + 2 := by
    simp only [pre, List.length_append, List.length_take, length_instructions, length_quartets, List.length_cons,
      List.length_nil]
    omega
  have hbefore : retagged q first k = pre ++ ⟨.paintImageMask, g.paint⟩ :: post := by
    rw [retagged, hdrop]
    simp only [pre, post, g, Quartet.instructions, List.append_assoc, List.cons_append, List.nil_append, Nat.mul_succ,
      Nat.add_assoc]
  have hafter : retagged q first (k + 1) = pre ++ ⟨.paintSolidMask, g.paint⟩ :: post := by
    rw [retagged, quartets_add, List.flatMap_append]
    simp [pre, post, g, Quartet.instructions, quartets]
  rw [hbefore, hafter, ← hpre, Columns.retagAt_ofList]

theorem retagAll_eq (h : ∀ i, first ≤ i → i < stop → imageMasks.TagFits q first i) (hk : first + 4 * k ≤ stop)
    (hq : stop ≤ q.length) :
    (List.range k).foldlM (fun c k ↦ c.retagAt (first + 4 * k + 2) .paintSolidMask) (ofList q) =
      .ok (ofList (retagged q first k)) := by
  induction k with
  | zero => simp [retagged, quartets]
  | succ k ih =>
    rw [List.range_succ, List.foldlM_append, ih (by omega), ok_bind, List.foldlM_cons, retagAt_retagged h hk hq]
    rfl

def solidMasks (gs : List Quartet) : Nat := (gs.takeWhile fun g ↦ paintsSolidUnit g.paint).length

theorem solidMasks_quartets_le (q : List Instruction) (first n : Nat) : solidMasks (quartets q first n) ≤ n := by
  have hle : solidMasks (quartets q first n) ≤ (quartets q first n).length := (List.takeWhile_prefix _).length_le
  rwa [length_quartets] at hle

theorem exists_solidMasks (q : List Instruction) (first n : Nat) :
    ∃ k, k = solidMasks (quartets q first n) ∧ k ≤ n := ⟨_, rfl, solidMasks_quartets_le q first n⟩

theorem solidMasks_eq_zero {g : Quartet} (gs : List Quartet) (h : ¬ paintsSolidUnit g.paint) :
    solidMasks (g :: gs) = 0 := by
  rw [solidMasks, List.takeWhile_cons_of_neg (p := fun g : Quartet ↦ paintsSolidUnit g.paint) h, List.length_nil]

theorem solid_of_mem_take {g : Quartet} (h : g ∈ gs.take (solidMasks gs)) : paintsSolidUnit g.paint := by
  rw [solidMasks, ← List.prefix_iff_eq_take.1 (List.takeWhile_prefix _)] at h
  exact List.mem_takeWhile_imp (p := fun g : Quartet ↦ paintsSolidUnit g.paint) h

theorem IsRun.drop_retagged (h : imageMasks.IsRun q first stop) (hk : first + 4 * (k + 1) ≤ stop) :
    imageMasks.IsRun (retagged q first k) (first + 4 * k) stop := by
  have hq := h.within
  have hfit : first + 4 * k ≤ q.length := by omega
  refine ⟨by change first + 4 * k + 4 ≤ stop; omega, by rwa [length_retagged hfit], fun i hi his ↦ ?_, rfl,
    fun _ _ _ ↦ rfl⟩
  rw [TagFits, getElem?_retagged hfit hi]
  exact tagFits_shift h.tags k i hi his

theorem batchImageMasks_eq (h : imageMasks.IsRun q first stop) {total solid : Nat} (ht : total = (stop - first) / 4)
    (hs : solid = solidMasks (quartets q first total)) :
    batchImageMasks l (ofList q) first stop =
      if total - solid < l.minImageMasks then
        .ok ⟨ofList (retagged q first solid), stop - (stop - (first + 4 * solid)) % imageMasks.period⟩
      else collapseMasks l (ofList (retagged q first solid)) (first + 4 * solid) stop (total - solid) := by
  have hle : first ≤ stop := (Nat.le_add_right _ _).trans h.whole
  have hq := h.within
  have hfit : first + 4 * total ≤ q.length := by omega
  have hsolid : solid ≤ total := hs.trans_le (solidMasks_quartets_le q first total)
  have hcount : (((quartets q first total).map (·.paint)).takeWhile paintsSolidUnit).length = solid := by
    rw [List.takeWhile_map, List.length_map, hs]
    rfl
  rw [batchImageMasks, distance_ok hle, ok_bind, ← ht]
  dsimp only
  rw [paints_eq hfit, ok_bind, hcount, retagAll_eq h.tags (by omega) hq, ok_bind,
    distance_ok hsolid, ok_bind, ← leave_eq _ (by omega)]

end Solid

theorem Gives.solidMasks (hl : l.Valid) (h : imageMasks.IsRun q first stop) {k next : Nat} {form : List Instruction}
    {b : Batching} (hk : ∀ g ∈ quartets q first k, paintsSolidUnit g.paint) (hn : first + 4 * k ≤ next)
    (hnext : next ≤ stop) (hlt : first < next)
    (hc : b.columns = ofList ((retagged q first k).take (first + 4 * k) ++ form ++ (retagged q first k).drop next))
    (hr : b.resume = first + 4 * k + form.length) (hd : Draws l (stretch q (first + 4 * k) next) form) :
    Gives l q first stop b first next
      ((quartets q first k).flatMap (Quartet.instructions .paintSolidMask) ++ form) := by
  have hq := h.within
  refine ⟨?_, ?_, ?_, hlt, hnext, .inl rfl⟩
  · rw [hc, take_retagged (by omega), drop_retagged (by omega) hn]
    simp only [List.append_assoc]
  · rw [hr, List.length_append, length_instructions, length_quartets]
    omega
  · rw [← stretch_append_stretch (Nat.le_add_right _ _) hn, stretch_eq_quartets rfl h.tags (by omega)]
    exact (Draws.solidMasks hl hk).append hd

theorem stretch_retagged {k next : Nat} (h : first + 4 * k ≤ q.length) :
    stretch (retagged q first k) (first + 4 * k) next = stretch q (first + 4 * k) next := by
  rw [stretch, drop_retagged h le_rfl, stretch]

theorem batchImageMasks_gives (hl : l.Valid) (h : imageMasks.IsRun q first stop) :
    ∃ b next form, batchImageMasks l (ofList q) first stop = .ok b ∧ Gives l q first stop b first next form := by
  have hwhole : first + 4 ≤ stop := h.whole
  have hq := h.within
  obtain ⟨total, htotal⟩ : ∃ total, total = (stop - first) / 4 := ⟨_, rfl⟩
  obtain ⟨solid, hs, hsolid⟩ := exists_solidMasks q first total
  have hk : ∀ g ∈ quartets q first solid, paintsSolidUnit g.paint := by
    intro g hg
    rw [← take_quartets q first hsolid, hs] at hg
    exact solid_of_mem_take hg
  have hfit : first + 4 * solid ≤ q.length := by omega
  rw [batchImageMasks_eq h htotal hs]
  by_cases hc : total - solid < l.minImageMasks
  · rw [if_pos hc, show imageMasks.period = 4 from rfl]
    have hnext : first + 4 * solid ≤ stop - (stop - (first + 4 * solid)) % 4 := by omega
    have hlt : first < stop - (stop - (first + 4 * solid)) % 4 := by omega
    refine ⟨_, _, _, rfl, .solidMasks hl h hk hnext (Nat.sub_le _ _) hlt ?_ ?_ (.refl l _)⟩
    · rw [← stretch_retagged hfit, take_append_stretch hnext, List.take_append_drop]
    · rw [length_stretch (by omega)]
      dsimp only
      omega
  · rw [if_neg hc]
    have hmin := hl.imageMasks
    obtain ⟨n, hn⟩ := Nat.exists_eq_add_one.2 (show 0 < total - solid by omega)
    have hrun := h.drop_retagged (k := solid) (by omega)
    obtain ⟨b, next, form, hb, hg⟩ := collapseMasks_gives (n := n) hl hrun (by omega) (by omega)
    have hprogress := hg.progress
    rw [hn]
    refine ⟨b, _, _, hb, .solidMasks hl h hk hprogress.le hg.within (by omega) hg.columns hg.resume ?_⟩
    rw [← stretch_retagged hfit]
    exact hg.draws

end Pattern

end DisplayList
