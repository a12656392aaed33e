import DisplayList.Proofs.Clearings
import DisplayList.Proofs.Course

namespace DisplayList

open Columns (ofList)
open Relation (ReflTransGen)

section Prepended

variable {pre q : List Instruction} {i j n : Nat}

theorem getElem?_prepend (pre q : List Instruction) (i : Nat) : (pre ++ q)[pre.length + i]? = q[i]? := by
  rw [List.getElem?_append_right (Nat.le_add_right _ _), Nat.add_sub_cancel_left]

theorem argsOf_prepend (pre q : List Instruction) (i : Nat) : argsOf (pre ++ q) (pre.length + i) = argsOf q i := by
  rw [argsOf, argsOf, getElem?_prepend]

theorem take_prepend (pre q : List Instruction) (i : Nat) : (pre ++ q).take (pre.length + i) = pre ++ q.take i :=
  List.take_length_add_append i

theorem drop_prepend (pre q : List Instruction) (i : Nat) : (pre ++ q).drop (pre.length + i) = q.drop i :=
  List.drop_length_add_append i

theorem stretch_prepend (pre q : List Instruction) (i j : Nat) :
    stretch (pre ++ q) (pre.length + i) (pre.length + j) = stretch q i j := by
  rw [stretch, stretch, drop_prepend, Nat.add_sub_add_left]

theorem quartet_prepend (pre q : List Instruction) (i : Nat) :
    Quartet.ofIndex (pre ++ q) (pre.length + i) = Quartet.ofIndex q i := by
  simp only [Quartet.ofIndex, Nat.add_assoc, argsOf_prepend]

theorem wrapper_prepend (pre q : List Instruction) (i : Nat) :
    Wrapper.ofIndex (pre ++ q) (pre.length + i) = Wrapper.ofIndex q i := by
  simp only [Wrapper.ofIndex, Nat.add_assoc, argsOf_prepend]

theorem quartets_prepend (pre q : List Instruction) (i n : Nat) :
    quartets (pre ++ q) (pre.length + i) n = quartets q i n := by
  simp only [quartets, Nat.add_assoc, quartet_prepend]

theorem wrappers_prepend (pre q : List Instruction) (i n : Nat) :
    wrappers (pre ++ q) (pre.length + i) n = wrappers q i n := by
  simp only [wrappers, Nat.add_assoc, wrapper_prepend]

theorem Columns.ofList_append (q r : List Instruction) : ofList (q ++ r) = ofList q ++ ofList r := by
  change _ = Columns.append _ _
  simp [Columns.append, ofList]

end Prepended

namespace Pattern

variable {l : Limits} {p p' : Pattern} {pre q q' r : List Instruction} {t : Instruction}
  {first stop i j k n n' : Nat}

section Prepended

theorem groupAt_prepend : p.GroupAt (pre ++ q) (pre.length + i) ↔ p.GroupAt q i := by
  simp only [GroupAt, Nat.add_assoc, getElem?_prepend]

theorem tagFits_prepend : p.TagFits (pre ++ q) (pre.length + first) (pre.length + i) ↔ p.TagFits q first i := by
  rw [TagFits, TagFits, getElem?_prepend, Nat.add_sub_add_left]

theorem agrees_prepend : p.agrees (pre ++ q) (pre.length + first) (pre.length + i) = p.agrees q first i := by
  simp only [agrees, Nat.add_sub_add_left, Nat.add_assoc, argsOf_prepend]

theorem opens_prepend : p.opens (pre ++ q) (pre.length + first) = p.opens q first := by
  simp only [opens, Nat.add_assoc, argsOf_prepend]

theorem opensAt_prepend : p.OpensAt (pre ++ q) (pre.length + i) ↔ p.OpensAt q i := by
  constructor
  · intro h
    exact ⟨groupAt_prepend.1 h.group, opens_prepend ▸ h.opens⟩
  · intro h
    exact ⟨groupAt_prepend.2 h.group, opens_prepend.symm ▸ h.opens⟩

theorem IsRun.prepend (h : p.IsRun q first stop) (pre : List Instruction) :
    p.IsRun (pre ++ q) (pre.length + first) (pre.length + stop) := by
  have hwhole := h.whole
  refine ⟨by omega, ?_, fun i hi his ↦ ?_, opens_prepend.symm ▸ h.opens, fun i hi his ↦ ?_⟩
  · rw [List.length_append]
    exact Nat.add_le_add_left h.within _
  · obtain ⟨i, rfl⟩ := Nat.exists_eq_add_of_le ((Nat.le_add_right _ _).trans hi)
    exact tagFits_prepend.2 (h.tags i (by omega) (by omega))
  · obtain ⟨i, rfl⟩ := Nat.exists_eq_add_of_le (show pre.length ≤ i by omega)
    rw [agrees_prepend]
    exact h.agrees i (by omega) (by omega)

theorem retagged_prepend (pre q : List Instruction) (first k : Nat) :
    retagged (pre ++ q) (pre.length + first) k = pre ++ retagged q first k := by
  rw [retagged, retagged, take_prepend, quartets_prepend, Nat.add_assoc, drop_prepend]
  simp only [List.append_assoc]

theorem followsSameText_prepend (hlast : t.tag ∉ textEnd) :
    followsSameText (pre ++ [t] ++ q) ((pre ++ [t]).length + first) = followsSameText q first := by
  by_cases hfour : 4 ≤ first
  · obtain ⟨first, rfl⟩ := Nat.exists_eq_add_of_le' hfour
    have hback : (pre ++ [t]).length + (first + 4) - 4 = (pre ++ [t]).length + first := rfl
    rw [followsSameText, followsSameText, hback, stretch_prepend, argsOf_prepend, Nat.add_assoc _ (first + 4) 1,
      argsOf_prepend, Nat.add_sub_cancel, decide_eq_true hfour, decide_eq_true (hfour.trans (Nat.le_add_left _ _))]
  · have hfar : ¬ followsSameText q first := fun h ↦ hfour (followsSameText_iff.1 h).1
    have hnear : ¬ followsSameText (pre ++ [t] ++ q) ((pre ++ [t]).length + first) := by
      intro h
      obtain ⟨hle, htags, -⟩ := followsSameText_iff.1 h
      have hlength : (pre ++ [t]).length = pre.length + 1 := by rw [List.length_append, List.length_singleton]
      rw [hlength] at hle htags
      have hin := map_stretch_getElem? (pre ++ [t] ++ q) (pre.length + 1 + first - 4) (pre.length + 1 + first)
        (k := 3 - first) (by omega)
      have hat : pre.length + 1 + first - 4 + (3 - first) = pre.length + 0 := by omega
      rw [htags, hat, List.append_assoc, getElem?_prepend] at hin
      exact hlast (List.mem_of_getElem? hin)
    rw [Bool.eq_false_iff.2 hfar, Bool.eq_false_iff.2 hnear]

end Prepended

section Batches

theorem sub_mod_prepend (m : Nat) :
    pre.length + stop - (pre.length + stop - (pre.length + first)) % m = pre.length + (stop - (stop - first) % m) := by
  have := (Nat.mod_le (stop - first) m).trans (Nat.sub_le _ _)
  rw [Nat.add_sub_add_left]
  omega

theorem batchImages_prepend (hl : l.Valid) (h : images.IsRun q first stop) (pre : List Instruction)
    (hb : batchImages l (ofList q) first stop = .ok ⟨ofList q', n'⟩) :
    batchImages l (ofList (pre ++ q)) (pre.length + first) (pre.length + stop) =
      .ok ⟨ofList (pre ++ q'), pre.length + n'⟩ := by
  have hle : first ≤ stop := (Nat.le_add_right _ _).trans h.whole
  have hcount : (pre.length + stop - (pre.length + first)) / 4 = (stop - first) / 4 := by
    rw [Nat.add_sub_add_left]
  by_cases hn : min ((stop - first) / 4) l.maxImages < l.minImages
  · obtain ⟨rfl, rfl⟩ := eq_of_batch hb (batchImages_short h hn)
    rw [batchImages_short (h.prepend pre) (by rwa [hcount]), sub_mod_prepend]
  · have hmin := hl.images
    obtain ⟨n, hn'⟩ := Nat.exists_eq_add_one.2 (show 0 < min ((stop - first) / 4) l.maxImages by omega)
    obtain ⟨rfl, rfl⟩ := eq_of_batch hb (batchImages_eq h hn'.symm (by omega))
    rw [batchImages_eq (n := n) (h.prepend pre) (by omega) (by omega)]
    simp only [Nat.add_assoc, take_prepend, drop_prepend, quartet_prepend, quartets_prepend, List.append_assoc]

theorem batchInlineImages_prepend (h : inlineImages.IsRun q first stop) (pre : List Instruction)
    (hb : batchInlineImages l (ofList q) first stop = .ok ⟨ofList q', n'⟩) :
    batchInlineImages l (ofList (pre ++ q)) (pre.length + first) (pre.length + stop) =
      .ok ⟨ofList (pre ++ q'), pre.length + n'⟩ := by
  have hle : first ≤ stop := (Nat.le_add_right _ _).trans h.whole
  have hcount : (pre.length + stop - (pre.length + first)) / 4 = (stop - first) / 4 := by
    rw [Nat.add_sub_add_left]
  by_cases hn : min ((stop - first) / 4) l.maxInlineImages < l.minInlineImages
  · obtain ⟨rfl, rfl⟩ := eq_of_batch hb (batchInlineImages_short h hn)
    rw [batchInlineImages_short (h.prepend pre) (by rwa [hcount]), sub_mod_prepend]
  · obtain ⟨n, hn'⟩ : ∃ n, n = min ((stop - first) / 4) l.maxInlineImages := ⟨_, rfl⟩
    obtain ⟨images, atlas, hpaints, -, hpacked, he⟩ := batchInlineImages_eq h hn' (by omega)
    obtain ⟨images', atlas', hpaints', -, hpacked', he'⟩ :=
      batchInlineImages_eq (n := n) (l := l) (h.prepend pre) (by omega) (by omega)
    obtain ⟨rfl, rfl⟩ := eq_of_batch hb he
    rw [quartets_prepend] at hpaints' hpacked'
    obtain rfl : images' = images := List.map_injective_iff.2 (Option.some_injective _) (hpaints'.symm.trans hpaints)
    obtain rfl : atlas' = atlas := Except.ok.inj (hpacked'.symm.trans hpacked)
    rw [he']
    simp only [Nat.add_assoc, take_prepend, drop_prepend, List.append_assoc]

theorem leave_prepend (p : Pattern) (pre : List Instruction) (h : first ≤ stop)
    (hb : p.leave (ofList q) first stop = .ok ⟨ofList q', n'⟩) :
    p.leave (ofList (pre ++ q)) (pre.length + first) (pre.length + stop) =
      .ok ⟨ofList (pre ++ q'), pre.length + n'⟩ := by
  obtain ⟨rfl, rfl⟩ := eq_of_batch hb (leave_eq _ h)
  rw [leave_eq _ (Nat.add_le_add_left h _), sub_mod_prepend]

theorem collapse_prepend {tag : Tag} {args : List Arg} (pre : List Instruction) (h : first + 4 * n ≤ q.length)
    (hb : collapse (ofList q) first n tag args = .ok ⟨ofList q', n'⟩) :
    collapse (ofList (pre ++ q)) (pre.length + first) n tag args = .ok ⟨ofList (pre ++ q'), pre.length + n'⟩ := by
  obtain ⟨rfl, rfl⟩ := eq_of_batch hb (collapse_eq h)
  rw [collapse_eq (by rw [List.length_append]; omega)]
  simp only [Nat.add_assoc, take_prepend, drop_prepend, List.append_assoc]

theorem collapseMasks_prepend (h : imageMasks.IsRun q first stop) (hn : first + 4 * (n + 1) ≤ stop)
    (pre : List Instruction) (hb : collapseMasks l (ofList q) first stop (n + 1) = .ok ⟨ofList q', n'⟩) :
    collapseMasks l (ofList (pre ++ q)) (pre.length + first) (pre.length + stop) (n + 1) =
      .ok ⟨ofList (pre ++ q'), pre.length + n'⟩ := by
  have hle : first ≤ stop := (Nat.le_add_right _ _).trans h.whole
  have hq := h.within
  have hfit : pre.length + first + 4 * (n + 1) ≤ pre.length + stop := by omega
  have hpaint := quartet_prepend pre q first
  cases hm : firstImage? (Quartet.ofIndex q first).paint with
  | none =>
    obtain ⟨rfl, rfl⟩ := eq_of_batch hb (collapseMasks_none h hn hm)
    rw [collapseMasks_none (h.prepend pre) hfit (hpaint ▸ hm), sub_mod_prepend]
  | some mask =>
    have hsame := sameMasks_le mask (Quartet.ofIndex q first) (quartets q (first + 4) n)
    rw [length_quartets] at hsame
    rw [collapseMasks_some (hn.trans hq) hm] at hb
    rw [collapseMasks_some (hfit.trans (h.prepend pre).within) (hpaint ▸ hm)]
    simp only [Nat.add_assoc, quartet_prepend, quartets_prepend] at hb ⊢
    split at hb
    · rename_i hrepeats
      rw [if_pos hrepeats]
      exact collapse_prepend pre (by omega) hb
    · rename_i hrepeats
      rw [if_neg hrepeats]
      cases hmasks : ((quartets q first (min (n + 1) l.maxImageMasks)).map (·.paint)).mapM firstImage? with
      | none =>
        rw [hmasks] at hb
        exact leave_prepend _ pre hle hb
      | some masks =>
        rw [hmasks] at hb
        exact collapse_prepend pre (by omega) hb

theorem batchImageMasks_prepend (hl : l.Valid) (h : imageMasks.IsRun q first stop) (pre : List Instruction)
    (hb : batchImageMasks l (ofList q) first stop = .ok ⟨ofList q', n'⟩) :
    batchImageMasks l (ofList (pre ++ q)) (pre.length + first) (pre.length + stop) =
      .ok ⟨ofList (pre ++ q'), pre.length + n'⟩ := by
  have hmin := hl.imageMasks
  have hq := h.within
  obtain ⟨total, htotal⟩ : ∃ total, total = (stop - first) / 4 := ⟨_, rfl⟩
  obtain ⟨k, hk, hle⟩ := exists_solidMasks q first total
  have htotal' : total = (pre.length + stop - (pre.length + first)) / 4 := by rwa [Nat.add_sub_add_left]
  have hk' : k = solidMasks (quartets (pre ++ q) (pre.length + first) total) := by rwa [quartets_prepend]
  rw [batchImageMasks_eq h htotal hk] at hb
  rw [batchImageMasks_eq (h.prepend pre) htotal' hk', retagged_prepend, Nat.add_assoc]
  split at hb
  · rename_i hfew
    obtain ⟨rfl, rfl⟩ := eq_of_batch hb rfl
    rw [if_pos hfew, sub_mod_prepend]
  · rename_i hmany
    obtain ⟨n, hn⟩ := Nat.exists_eq_add_one.2 (show 0 < total - k by omega)
    rw [if_neg hmany]
    rw [hn] at hb ⊢
    exact collapseMasks_prepend (h.drop_retagged (by omega)) (by omega) pre hb

theorem batchGlyphRuns_prepend (hl : l.Valid) (h : glyphRuns.IsRun q first stop) (pre : List Instruction)
    (hlast : t.tag ∉ textEnd) (hb : batchGlyphRuns l (ofList q) first stop = .ok ⟨ofList q', n'⟩) :
    batchGlyphRuns l (ofList (pre ++ [t] ++ q)) ((pre ++ [t]).length + first) ((pre ++ [t]).length + stop) =
      .ok ⟨ofList (pre ++ [t] ++ q'), (pre ++ [t]).length + n'⟩ := by
  have hle : first ≤ stop := (Nat.le_add_right _ _).trans h.whole
  have hfollows : followsSameText (pre ++ [t] ++ q) ((pre ++ [t]).length + first) = followsSameText q first :=
    followsSameText_prepend hlast
  obtain ⟨front, hfront⟩ : ∃ front, front = pre ++ [t] := ⟨_, rfl⟩
  rw [← hfront] at hfollows ⊢
  have hcount : (front.length + stop - (front.length + first)) / 5 = (stop - first) / 5 := by
    rw [Nat.add_sub_add_left]
  by_cases hn : min ((stop - first) / 5) l.maxGlyphRuns < l.minGlyphRuns
  · obtain ⟨rfl, rfl⟩ := eq_of_batch hb (batchGlyphRuns_short h hn)
    rw [batchGlyphRuns_short (h.prepend front) (by rwa [hcount]), sub_mod_prepend]
  have hmin := hl.glyphRuns
  obtain ⟨n, hn'⟩ := Nat.exists_eq_add_one.2 (show 0 < min ((stop - first) / 5) l.maxGlyphRuns by omega)
  by_cases hf : followsSameText q first
  · obtain ⟨rfl, rfl⟩ := eq_of_batch hb (batchGlyphRuns_joined h hn'.symm (by omega) hf)
    obtain ⟨hfour, -⟩ := followsSameText_iff.1 hf
    obtain ⟨start, rfl⟩ := Nat.exists_eq_add_of_le' hfour
    have hbefore : textBefore (front ++ q) (front.length + (start + 4)) = textBefore q (start + 4) := by
      have hback (k : Nat) (hk : k ≤ 4) :
          argsOf (front ++ q) (front.length + (start + 4) - k) = argsOf q (start + 4 - k) := by
        rw [Nat.add_sub_assoc (by omega), argsOf_prepend]
      rw [textBefore, textBefore, hback 4 le_rfl, hback 3 (by omega), hback 2 (by omega), hback 1 (by omega)]
    rw [batchGlyphRuns_joined (n := n) (h.prepend front) (by omega) (by omega) (hfollows ▸ hf), hbefore,
      Nat.add_sub_assoc (Nat.le_add_left _ _)]
    simp only [Nat.add_assoc, take_prepend, drop_prepend, wrappers_prepend, List.append_assoc]
  · obtain ⟨rfl, rfl⟩ := eq_of_batch hb (batchGlyphRuns_alone h hn'.symm (by omega) hf)
    rw [batchGlyphRuns_alone (n := n) (h.prepend front) (by omega) (by omega) (hfollows ▸ hf)]
    simp only [Nat.add_assoc, take_prepend, drop_prepend, wrapper_prepend, wrappers_prepend, List.append_assoc]

theorem batch_prepend (hl : l.Valid) (h : p.IsRun q first stop) (pre : List Instruction) (hlast : t.tag ∉ textEnd)
    (hb : p.batch l (ofList q) first stop = .ok ⟨ofList q', n'⟩) :
    p.batch l (ofList (pre ++ [t] ++ q)) ((pre ++ [t]).length + first) ((pre ++ [t]).length + stop) =
      .ok ⟨ofList (pre ++ [t] ++ q'), (pre ++ [t]).length + n'⟩ := by
  cases p with
  | inlineImages => exact batchInlineImages_prepend h _ hb
  | imageMasks => exact batchImageMasks_prepend hl h _ hb
  | images => exact batchImages_prepend hl h _ hb
  | glyphRuns => exact batchGlyphRuns_prepend hl h pre hlast hb

end Batches

section Appended

theorem groupAt_append (hi : i + p.period ≤ q.length) : p.GroupAt (q ++ r) i ↔ p.GroupAt q i := by
  have hat (k : Nat) (hk : k < p.period) : (q ++ r)[i + k]? = q[i + k]? := List.getElem?_append_left (by omega)
  constructor
  · intro h k hk
    rw [← hat k hk]
    exact h k hk
  · intro h k hk
    rw [hat k hk]
    exact h k hk

theorem opens_append (hi : i + p.period ≤ q.length) : p.opens (q ++ r) i = p.opens q i := by
  have hfour := p.four_le_period
  simp only [opens, argsOf_append (show i + 1 < q.length by omega), argsOf_append (show i + 2 < q.length by omega)]

theorem agrees_append (hi : first + p.period ≤ i) (hq : i < q.length) :
    p.agrees (q ++ r) first i = p.agrees q first i := by
  have hfour := p.four_le_period
  simp only [agrees, argsOf_append (show first + 1 < q.length by omega),
    argsOf_append (show first + 2 < q.length by omega), argsOf_append hq]

theorem OpensAt.of_append (h : p.OpensAt (q ++ r) i) (hi : i + p.period ≤ q.length) : p.OpensAt q i :=
  ⟨(groupAt_append hi).1 h.group, opens_append hi ▸ h.opens⟩

theorem GroupAt.le_of_alien (h : p.GroupAt (q ++ t :: r) i) (ht : t.tag ∉ p.group) (hi : i ≤ q.length) :
    i + p.period ≤ q.length := by
  by_contra hlt
  refine ht (tag_mem_group h hi (Nat.not_le.1 hlt) ?_)
  rw [List.getElem?_append_right le_rfl, Nat.sub_self]
  rfl

end Appended

end Pattern

open Pattern

variable {l : Limits} {p : Pattern} {first stop n m : Nat} {q x x' y y' : List Instruction}
  {s s' : List Instruction × Nat} {t : Instruction}

theorem Turn.le_length (hl : l.Valid) (h : Turn l p first stop s s') : s'.2 ≤ s'.1.length := by
  obtain ⟨b, start, next, form, hb, hgives⟩ := batch_gives hl h.run
  rw [hgives.batching] at hb
  obtain ⟨hq, hn⟩ := eq_of_batch h.batch hb
  rw [hq, hn]
  exact hgives.length_form_le h.run.within

theorem Turns.le_length (hl : l.Valid) (h : Turns l s s') (hs : s.2 ≤ s.1.length) : s'.2 ≤ s'.1.length := by
  cases h with
  | refl => exact hs
  | tail _ hturn =>
    obtain ⟨p, first, stop, hturn⟩ := hturn
    exact hturn.le_length hl

theorem Turn.append (ht : ∀ p : Pattern, t.tag ∉ p.group) (r : List Instruction) (h : Turn l p first stop s s') :
    Turn l p first stop (s.1 ++ t :: r, s.2) (s'.1 ++ t :: r, s'.2) := by
  have hrun := h.run
  have hwhole := hrun.whole
  refine ⟨h.le, fun p' i hi hlt hopens ↦ ?_, hrun.append _, fun hfits ↦ ?_, ?_⟩
  · have hle := hopens.group.le_of_alien (ht p') (by have := hrun.within; omega)
    exact h.earliest p' i hi hlt (hopens.of_append hle)
  · obtain ⟨htag, hagrees⟩ := hfits
    obtain hlt | heq := hrun.within.lt_or_eq
    · refine h.ends ⟨?_, ?_⟩
      · rwa [TagFits, List.getElem?_append_left hlt] at htag
      · rwa [agrees_append hwhole hlt] at hagrees
    · refine ht p (List.mem_of_getElem? (i := (stop - first) % p.period) ?_)
      rw [← htag, heq, List.getElem?_append_right le_rfl, Nat.sub_self]
      rfl
  · obtain ⟨q, hq, hrest⟩ := p.sparesRest_batch l first stop h.batch
    obtain rfl : s'.1 = q := Columns.ofList_injective hq
    exact hrest (t :: r)

theorem Turns.append (ht : ∀ p : Pattern, t.tag ∉ p.group) (r : List Instruction) (h : Turns l s s') :
    Turns l (s.1 ++ t :: r, s.2) (s'.1 ++ t :: r, s'.2) := by
  induction h with
  | refl => exact .refl
  | tail _ hturn ih =>
    obtain ⟨p, first, stop, hturn⟩ := hturn
    exact ih.tail ⟨p, first, stop, hturn.append ht r⟩

theorem Turn.prepend (hl : l.Valid) (ht : t.tag ∉ textEnd) (pre : List Instruction) (h : Turn l p first stop s s') :
    Turn l p ((pre ++ [t]).length + first) ((pre ++ [t]).length + stop)
      (pre ++ [t] ++ s.1, (pre ++ [t]).length + s.2) (pre ++ [t] ++ s'.1, (pre ++ [t]).length + s'.2) := by
  refine ⟨Nat.add_le_add_left h.le _, fun p' i hi hlt hopens ↦ ?_, h.run.prepend _, fun hfits ↦ ?_,
    batch_prepend hl h.run pre ht h.batch⟩
  · obtain ⟨i, rfl⟩ := Nat.exists_eq_add_of_le ((Nat.le_add_right _ _).trans hi)
    exact h.earliest p' i (Nat.le_of_add_le_add_left hi) (Nat.lt_of_add_lt_add_left hlt) (opensAt_prepend.1 hopens)
  · exact h.ends ⟨tagFits_prepend.1 hfits.1, agrees_prepend ▸ hfits.2⟩

theorem Turns.prepend (hl : l.Valid) (ht : t.tag ∉ textEnd) (pre : List Instruction) (h : Turns l s s') :
    Turns l (pre ++ [t] ++ s.1, (pre ++ [t]).length + s.2) (pre ++ [t] ++ s'.1, (pre ++ [t]).length + s'.2) := by
  induction h with
  | refl => exact .refl
  | tail _ hturn ih =>
    obtain ⟨p, first, stop, hturn⟩ := hturn
    exact ih.tail ⟨p, _, _, hturn.prepend hl ht pre⟩

theorem ComesTo.prepend (hl : l.Valid) (ht : t.tag ∉ textEnd) (pre : List Instruction) (h : ComesTo l (q, n) x) :
    ComesTo l (pre ++ [t] ++ q, (pre ++ [t]).length + n) (pre ++ [t] ++ x) := by
  obtain ⟨m, hturns, hrest⟩ := h
  refine ⟨_, hturns.prepend hl ht pre, fun p i hi hopens ↦ ?_⟩
  obtain ⟨i, rfl⟩ := Nat.exists_eq_add_of_le ((Nat.le_add_right _ _).trans hi)
  exact hrest p i (Nat.le_of_add_le_add_left hi) (opensAt_prepend.1 hopens)

theorem not_mem_textEnd (ht : ∀ p : Pattern, t.tag ∉ p.group) : t.tag ∉ textEnd := by
  intro hmem
  exact ht .glyphRuns (List.mem_cons_of_mem _ hmem)

/-- What comes before an instruction of no group, and what comes after it, comes to rest apart. -/
theorem ComesTo.split (hl : l.Valid) (ht : ∀ p : Pattern, t.tag ∉ p.group) (hx : ComesTo l (x, 0) x')
    (hy : ComesTo l (y, 0) y') : ComesTo l (x ++ t :: y, 0) (x' ++ t :: y') := by
  obtain ⟨n, hturns, hrest⟩ := hx
  have hle : n ≤ x'.length := hturns.le_length hl (Nat.zero_le _)
  have hbefore := hturns.append ht y
  have hafter := hy.prepend hl (not_mem_textEnd ht) x'
  rw [List.append_assoc, List.append_assoc, List.length_append, List.length_singleton] at hafter
  -- Between the two nothing opens a run: it would hold the instruction, or stand in what is at rest.
  refine .of_turns hbefore (hafter.of_later (show n ≤ x'.length + 1 + 0 by omega) fun p i hi hlt hopens ↦ ?_)
  have hend := hopens.group.le_of_alien (ht p) (show i ≤ x'.length by omega)
  exact hrest p i hi (hopens.of_append hend)

namespace Optimizer

/-- An instruction of no group splits the stream into two that are optimized apart. -/
theorem optimized_split (hl : l.violation? = none) (x y : List Instruction) {t : Instruction}
    (ht : ∀ p : Pattern, t.tag ∉ p.group) :
    optimized l (x ++ [t] ++ y) = optimized l x ++ ofList [t] ++ optimized l y := by
  obtain ⟨x', hx, hcomes⟩ := exists_comesTo hl x
  obtain ⟨y', hy, hcomes'⟩ := exists_comesTo hl y
  have hsplit := hcomes.split (Limits.violation?_eq_none_iff.1 hl) ht hcomes'
  rw [hx, hy, ← Columns.ofList_append, ← Columns.ofList_append, List.append_assoc, List.append_assoc]
  exact (optimized_eq_iff hl).2 hsplit

theorem optimized_split_scattered :
    let width : Instruction := ⟨⟨2⟩, [.int 1]⟩
    ({} : Limits).violation? = none ∧ (∀ p : Pattern, width.tag ∉ p.group) ∧
      optimized {} (scattered ++ [width] ++ scattered) =
        optimized {} scattered ++ ofList [width] ++ optimized {} scattered :=
  ⟨by decide, fun p ↦ by cases p <;> decide, optimized_split (by decide) _ _ fun p ↦ by cases p <;> decide⟩

end Optimizer

end DisplayList
