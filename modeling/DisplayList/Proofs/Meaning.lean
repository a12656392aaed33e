import DisplayList.Proofs.Run

/-!
What batching may make of a stream.

`Rewrite` lists the stretches of instructions that have a shorter form, each with that form. A queue `Draws` a stream
if the stream can be cut into such stretches, and into single instructions that stay, so that their forms one after
the other are the queue.
-/

namespace DisplayList

def Quartet.position (g : Quartet) : List Float32 :=
  [((numberAt? g.transform 4).getD 0.0).toFloat32, ((numberAt? g.transform 5).getD 0.0).toFloat32]

/-- The arguments that paint the subject of `g`, scaled as `g` scales it, at the positions of `g` and `gs`. -/
def Quartet.repeated (g : Quartet) (gs : List Quartet) : List Arg :=
  [g.paint.headD .null, .number ((numberAt? g.transform 0).getD 1.0), .number ((numberAt? g.transform 3).getD 1.0),
    .positions ((g :: gs).flatMap Quartet.position)]

def Wrapper.merged (w : Wrapper) (ws : List Wrapper) : List Instruction :=
  w.opening ++ (w :: ws).flatMap Wrapper.body ++ (ws.getLastD w).closing

def textEnd : List Tag := [.setFont, .setTextMatrix, .showText, .endText]

/-- A stretch of instructions, and what it may become under the given limits. -/
inductive Rewrite (l : Limits) : List Instruction → List Instruction → Prop
  | same (i : Instruction) : Rewrite l [i] [i]
  | solidMask (mask : Resource) (solid : mask.image.isSolidUnit) :
    Rewrite l [⟨.paintImageMask, [.image mask]⟩] [⟨.paintSolidMask, [.image mask]⟩]
  | imageRepeat (g : Quartet) (gs : List Quartet)
    (least : l.minImages ≤ (g :: gs).length) (most : (g :: gs).length ≤ l.maxImages)
    (upright : isUpright g.transform) (scale : ∀ g' ∈ gs, sameScale g.transform g'.transform)
    (subject : ∀ g' ∈ gs, sameSubject g.paint g'.paint) :
    Rewrite l ((g :: gs).flatMap (Quartet.instructions .paintImage)) [⟨.paintImageRepeat, g.repeated gs⟩]
  | maskRepeat (mask : Resource) (g : Quartet) (gs : List Quartet)
    (least : l.minImageMasks ≤ (g :: gs).length) (most : (g :: gs).length ≤ l.maxSameImageMasks)
    (first : firstImage? g.paint = some mask)
    (upright : isUpright g.transform) (scale : ∀ g' ∈ gs, sameScale g.transform g'.transform)
    (subject : ∀ g' ∈ gs, sameSubject g.paint g'.paint) :
    Rewrite l ((g :: gs).flatMap (Quartet.instructions .paintImageMask)) [⟨.paintImageMaskRepeat, g.repeated gs⟩]
  | maskGroup (gs : List Quartet) (masks : List Resource)
    (least : l.minImageMasks ≤ gs.length) (most : gs.length ≤ l.maxImageMasks)
    (paints : gs.map (fun g ↦ firstImage? g.paint) = masks.map some) :
    Rewrite l (gs.flatMap (Quartet.instructions .paintImageMask))
      [⟨.paintImageMaskGroup, [.masks (masks.zipWith (fun mask g ↦ ⟨mask, g.transform⟩) gs)]⟩]
  | inlineGroup (gs : List Quartet) (images : List Resource) (atlas : Atlas)
    (least : l.minInlineImages ≤ gs.length) (most : gs.length ≤ l.maxInlineImages)
    (paints : gs.map (fun g ↦ firstImage? g.paint) = images.map some)
    (packable : ∀ r ∈ images, r.image.isPackable)
    (packed : Atlas.pack (gs.zipWith (fun g r ↦ ⟨g.transform, r.image⟩) images) l.maxAtlasWidth l.atlasPadding =
      .ok atlas) :
    Rewrite l (gs.flatMap (Quartet.instructions .paintInlineImage))
      [⟨.paintInlineImageGroup, [.image ⟨none, atlas.image⟩, .placements atlas.placements]⟩]
  | text (w : Wrapper) (ws : List Wrapper)
    (least : l.minGlyphRuns ≤ (w :: ws).length) (most : (w :: ws).length ≤ l.maxGlyphRuns)
    (font : ∀ w' ∈ ws, Arg.sharesWithAll w.font w'.font) :
    Rewrite l ((w :: ws).flatMap Wrapper.instructions) (w.merged ws)
  /-- The rest of a text before the run, from its font on, joins in. -/
  | joinedText (w₀ w : Wrapper) (ws : List Wrapper)
    (least : l.minGlyphRuns ≤ (w :: ws).length) (most : (w :: ws).length ≤ l.maxGlyphRuns)
    (joined : Arg.sharesWithAll w₀.font w.font) (font : ∀ w' ∈ ws, Arg.sharesWithAll w.font w'.font) :
    Rewrite l ((w₀ :: w :: ws).flatMap Wrapper.instructions).tail (w₀.merged (w :: ws)).tail

/-- The stream can be cut into stretches whose forms make up the queue. -/
def Draws (l : Limits) (stream queue : List Instruction) : Prop :=
  ∃ cuts : List (List Instruction × List Instruction),
    (∀ cut ∈ cuts, cut.1 ≠ [] ∧ Rewrite l cut.1 cut.2) ∧
      cuts.flatMap (·.1) = stream ∧ cuts.flatMap (·.2) = queue

section Lemmas

variable {l : Limits} {s t s' t' q : List Instruction} {i : Instruction}

theorem Rewrite.ne_nil (hl : l.Valid) (h : Rewrite l s t) : s ≠ [] := by
  cases h with
  | same | solidMask => simp
  | imageRepeat | maskRepeat => simp [Quartet.instructions]
  | maskGroup gs masks least most paints =>
    have := hl.imageMasks
    cases gs with
    | nil => simp at least; omega
    | cons g gs => simp [Quartet.instructions]
  | inlineGroup gs images atlas least most paints packable packed =>
    have := hl.inlineImages
    cases gs with
    | nil => simp at least; omega
    | cons g gs => simp [Quartet.instructions]
  | text | joinedText => simp [Wrapper.instructions, Wrapper.opening]

theorem Draws.nil : Draws l [] [] := ⟨[], by simp, rfl, rfl⟩

theorem Draws.append (h : Draws l s t) (h' : Draws l s' t') : Draws l (s ++ s') (t ++ t') := by
  obtain ⟨cuts, hc, rfl, rfl⟩ := h
  obtain ⟨cuts', hc', rfl, rfl⟩ := h'
  refine ⟨cuts ++ cuts', fun cut hcut ↦ ?_, List.flatMap_append, List.flatMap_append⟩
  obtain hcut | hcut := List.mem_append.1 hcut
  · exact hc cut hcut
  · exact hc' cut hcut

theorem Draws.of_rewrite (hl : l.Valid) (h : Rewrite l s t) : Draws l s t :=
  ⟨[(s, t)], by simpa using ⟨h.ne_nil hl, h⟩, by simp, by simp⟩

theorem Draws.refl (l : Limits) (s : List Instruction) : Draws l s s :=
  ⟨s.map fun i ↦ ([i], [i]), by simpa using fun i _ ↦ Rewrite.same i, by simp [List.flatMap_map],
    by simp [List.flatMap_map]⟩

theorem Rewrite.of_paintsSolidUnit (l : Limits) {paint : List Arg} (h : paintsSolidUnit paint) :
    Rewrite l [⟨.paintImageMask, paint⟩] [⟨.paintSolidMask, paint⟩] := by
  rw [paintsSolidUnit, Bool.and_eq_true, decide_eq_true_eq] at h
  obtain ⟨hlength, hsolid⟩ := h
  obtain ⟨a, rfl⟩ := List.length_eq_one_iff.1 hlength
  cases a with
  | image mask => exact .solidMask mask hsolid
  | _ => simp [firstImage?, Arg.image?] at hsolid

theorem Draws.solidMasks (hl : l.Valid) {gs : List Quartet} (h : ∀ g ∈ gs, paintsSolidUnit g.paint) :
    Draws l (gs.flatMap (Quartet.instructions .paintImageMask))
      (gs.flatMap (Quartet.instructions .paintSolidMask)) := by
  induction gs with
  | nil => exact .nil
  | cons g gs ih =>
    have hmask := Draws.of_rewrite hl (.of_paintsSolidUnit l (h g List.mem_cons_self))
    have hhead : Draws l (g.instructions .paintImageMask) (g.instructions .paintSolidMask) :=
      (Draws.refl l [⟨.save, g.save⟩, ⟨.transform, g.transform⟩]).append
        (hmask.append (.refl l [⟨.restore, g.restore⟩]))
    rw [List.flatMap_cons, List.flatMap_cons]
    exact hhead.append (ih fun g' hg' ↦ h g' (List.mem_cons_of_mem g hg'))

end Lemmas

section Uncutting

variable {l : Limits} {s t pre : List Instruction} {i : Instruction}

theorem Wrapper.merged_nil (w : Wrapper) : w.merged [] = w.instructions := by simp [merged, instructions]

theorem Wrapper.merged_cons (w v : Wrapper) (ws : List Wrapper) :
    ∃ pre a b c d, pre ≠ [] ∧ w.merged (v :: ws) = pre ++ [a, b, c, d] ∧ a.tag = .showText ∧ d.tag = .endText := by
  have hlast (w v : Wrapper) : ∃ init y z, w :: v :: ws = init ++ [y, z] := by
    induction ws generalizing w v with
    | nil => exact ⟨[], w, v, rfl⟩
    | cons u ws ih =>
      obtain ⟨init, y, z, h⟩ := ih v u
      exact ⟨w :: init, y, z, by rw [h, List.cons_append]⟩
  obtain ⟨init, y, z, h⟩ := hlast w v
  refine ⟨w.opening ++ init.flatMap body ++ [⟨.setTextMatrix, y.matrix⟩], ⟨.showText, y.shown⟩,
    ⟨.setTextMatrix, z.matrix⟩, ⟨.showText, z.shown⟩, ⟨.endText, ((v :: ws).getLastD w).stop⟩, by simp, ?_, rfl, rfl⟩
  rw [merged, h]
  simp [body, closing]

theorem Rewrite.last (h : Rewrite l s t) :
    (∃ i, s = [i] ∧ t = [i]) ∨ (∃ i, t = [i] ∧ i.tag ∉ textEnd) ∨
      (∃ w : Wrapper, s = w.instructions ∧ t = w.instructions) ∨
      ∃ pre a b c d, t = pre ++ [a, b, c, d] ∧ a.tag = .showText ∧ d.tag = .endText := by
  cases h with
  | same i => exact .inl ⟨i, rfl, rfl⟩
  | solidMask | imageRepeat | maskRepeat | maskGroup | inlineGroup =>
    exact .inr (.inl ⟨_, rfl, by dsimp only; decide⟩)
  | text w ws =>
    cases ws with
    | nil => exact .inr (.inr (.inl ⟨w, by simp, w.merged_nil⟩))
    | cons v ws =>
      obtain ⟨pre, a, b, c, d, -, h, ha, hd⟩ := w.merged_cons v ws
      exact .inr (.inr (.inr ⟨pre, a, b, c, d, h, ha, hd⟩))
  | joinedText w₀ w ws =>
    obtain ⟨pre, a, b, c, d, hpre, h, ha, hd⟩ := w₀.merged_cons w ws
    exact .inr (.inr (.inr ⟨pre.tail, a, b, c, d, by rw [h, List.tail_append_of_ne_nil hpre], ha, hd⟩))

theorem Draws.cases_last (h : Draws l s t) (ht : t ≠ []) :
    ∃ s₀ t₀ s₁ t₁, s = s₀ ++ s₁ ∧ t = t₀ ++ t₁ ∧ Draws l s₀ t₀ ∧ Rewrite l s₁ t₁ := by
  obtain ⟨cuts, hc, rfl, rfl⟩ := h
  obtain rfl | ⟨cuts, cut, rfl⟩ := List.eq_nil_or_concat cuts
  · simp at ht
  · refine ⟨cuts.flatMap (·.1), cuts.flatMap (·.2), cut.1, cut.2, by simp, by simp,
      ⟨cuts, fun c h ↦ hc c (by simp [h]), rfl, rfl⟩, (hc cut (by simp)).2⟩

theorem Draws.of_mem_textEnd (h : Draws l s (t ++ [i])) (hi : i.tag ∈ textEnd) (he : i.tag ≠ .endText) :
    ∃ s', s = s' ++ [i] ∧ Draws l s' t := by
  obtain ⟨s₀, t₀, s₁, t₁, rfl, ht, hd, hr⟩ := h.cases_last (by simp)
  obtain ⟨j, rfl, rfl⟩ | ⟨j, rfl, hj⟩ | ⟨w, rfl, rfl⟩ | ⟨pre, a, b, c, d, rfl, -, hdt⟩ := hr.last
  · obtain ⟨rfl, hij⟩ := List.append_inj' ht rfl
    exact ⟨s₀, by rw [hij], hd⟩
  · obtain ⟨-, hij⟩ := List.append_inj' ht rfl
    cases hij
    exact absurd hi hj
  · rw [Wrapper.instructions, ← List.append_assoc] at ht
    obtain ⟨-, hiw⟩ := List.append_inj' ht rfl
    cases hiw
    exact absurd rfl he
  · have ht' : t ++ [i] = (t₀ ++ pre ++ [a, b, c]) ++ [d] := by simp [ht]
    obtain ⟨-, hid⟩ := List.append_inj' ht' rfl
    cases hid
    exact absurd hdt he

theorem Draws.of_textEnd {rest : List Instruction} (h : Draws l s (t ++ rest))
    (hrest : rest.map (·.tag) = textEnd) : ∃ s', s = s' ++ rest ∧ Draws l s' t := by
  obtain ⟨a, _, rfl, ha, hrest⟩ := List.map_eq_cons_iff.1 hrest
  obtain ⟨b, _, rfl, hb, hrest⟩ := List.map_eq_cons_iff.1 hrest
  obtain ⟨c, _, rfl, hc, hrest⟩ := List.map_eq_cons_iff.1 hrest
  obtain ⟨d, _, rfl, hd, hrest⟩ := List.map_eq_cons_iff.1 hrest
  obtain rfl := List.map_eq_nil_iff.1 hrest
  -- The end itself may belong to a wrapper that stayed alone, which is then cut into its instructions.
  obtain ⟨s₀, t₀, s₁, t₁, rfl, ht, hdraws, hr⟩ := h.cases_last (by simp)
  obtain ⟨j, rfl, rfl⟩ | ⟨j, rfl, hj⟩ | ⟨w, rfl, rfl⟩ | ⟨pre, a', b', c', d', rfl, ha', -⟩ := hr.last
  · have ht' : t ++ [a] ++ [b] ++ [c] ++ [d] = t₀ ++ [j] := by simp [← ht]
    obtain ⟨rfl, hdj⟩ := List.append_inj' ht' rfl
    obtain ⟨s₃, rfl, h₃⟩ := hdraws.of_mem_textEnd (by rw [hc]; decide) (by rw [hc]; decide)
    obtain ⟨s₂, rfl, h₂⟩ := h₃.of_mem_textEnd (by rw [hb]; decide) (by rw [hb]; decide)
    obtain ⟨s₁, rfl, h₁⟩ := h₂.of_mem_textEnd (by rw [ha]; decide) (by rw [ha]; decide)
    cases hdj
    exact ⟨s₁, by simp, h₁⟩
  · have ht' : t ++ [a, b, c] ++ [d] = t₀ ++ [j] := by simp [← ht]
    obtain ⟨-, hdj⟩ := List.append_inj' ht' rfl
    cases hdj
    exact absurd (by rw [hd]; decide) hj
  · have ht' : t ++ [a, b, c, d] = (t₀ ++ [⟨.beginText, w.start⟩]) ++
        [⟨.setFont, w.font⟩, ⟨.setTextMatrix, w.matrix⟩, ⟨.showText, w.shown⟩, ⟨.endText, w.stop⟩] := by
      rw [ht]
      simp [Wrapper.instructions, Wrapper.opening, Wrapper.body, Wrapper.closing]
    obtain ⟨rfl, hw⟩ := List.append_inj' ht' rfl
    refine ⟨s₀ ++ [⟨.beginText, w.start⟩], ?_, hdraws.append (.refl l _)⟩
    rw [hw]
    simp [Wrapper.instructions, Wrapper.opening, Wrapper.body, Wrapper.closing]
  · have ht' : t ++ [a, b, c, d] = (t₀ ++ pre) ++ [a', b', c', d'] := by rw [ht, List.append_assoc]
    obtain ⟨-, haa⟩ := List.append_inj' ht' rfl
    cases haa
    rw [ha] at ha'
    cases ha'

end Uncutting

section Outside

variable {l : Limits} {s t before after : List Instruction} {i : Instruction}

def batchedTags : List Tag :=
  [.save, .transform, .restore, .paintImageMask, .paintImageMaskGroup, .paintImage, .paintInlineImage,
    .paintInlineImageGroup, .paintImageRepeat, .paintImageMaskRepeat, .paintSolidMask, .beginText, .setFont,
    .setTextMatrix, .showText, .endText]

theorem Quartet.tag_mem {tag : Tag} (ht : tag ∈ batchedTags) {gs : List Quartet}
    (hi : i ∈ gs.flatMap (Quartet.instructions tag)) : i.tag ∈ batchedTags := by
  obtain ⟨g, -, hi⟩ := List.mem_flatMap.1 hi
  simp only [instructions, List.mem_cons, List.not_mem_nil, or_false] at hi
  obtain rfl | rfl | rfl | rfl := hi
  · simp [batchedTags]
  · simp [batchedTags]
  · exact ht
  · simp [batchedTags]

theorem Wrapper.tag_mem_group (w : Wrapper) {ws : List Wrapper} (hi : i ∈ w.merged ws) :
    i.tag ∈ Pattern.glyphRuns.group := by
  simp only [merged, opening, body, closing, List.mem_append, List.mem_flatMap, List.mem_cons, List.not_mem_nil,
    or_false] at hi
  obtain ((rfl | rfl) | ⟨v, -, rfl | rfl⟩) | rfl := hi <;> simp [Pattern.group]

theorem Wrapper.tag_mem (w : Wrapper) {ws : List Wrapper} (hi : i ∈ w.merged ws) : i.tag ∈ batchedTags := by
  have hall : ∀ tag ∈ Pattern.glyphRuns.group, tag ∈ batchedTags := by decide
  exact hall i.tag (w.tag_mem_group hi)

theorem Wrapper.tag_mem_flatMap {ws : List Wrapper} (hi : i ∈ ws.flatMap Wrapper.instructions) :
    i.tag ∈ batchedTags := by
  obtain ⟨w, -, hi⟩ := List.mem_flatMap.1 hi
  rw [← w.merged_nil] at hi
  exact w.tag_mem hi

theorem Rewrite.same_or_batched (h : Rewrite l s t) :
    (∃ i, s = [i] ∧ t = [i]) ∨ (∀ i ∈ s, i.tag ∈ batchedTags) ∧ ∀ i ∈ t, i.tag ∈ batchedTags := by
  cases h with
  | same i => exact .inl ⟨i, rfl, rfl⟩
  | solidMask => exact .inr ⟨by simp [batchedTags], by simp [batchedTags]⟩
  | imageRepeat | maskRepeat | maskGroup | inlineGroup =>
    exact .inr ⟨fun i hi ↦ Quartet.tag_mem (by simp [batchedTags]) hi, by simp [batchedTags]⟩
  | text w ws => exact .inr ⟨fun i hi ↦ Wrapper.tag_mem_flatMap hi, fun i hi ↦ w.tag_mem hi⟩
  | joinedText w₀ w ws =>
    exact .inr ⟨fun i hi ↦ Wrapper.tag_mem_flatMap (List.mem_of_mem_tail hi),
      fun i hi ↦ w₀.tag_mem (List.mem_of_mem_tail hi)⟩

theorem Rewrite.filter_eq (h : Rewrite l s t) {keep : Instruction → Bool}
    (hkeep : ∀ i, i.tag ∈ batchedTags → keep i = false) : t.filter keep = s.filter keep := by
  obtain ⟨i, rfl, rfl⟩ | ⟨hs, ht⟩ := h.same_or_batched
  · rfl
  · have hnone {r : List Instruction} (hr : ∀ i ∈ r, i.tag ∈ batchedTags) : r.filter keep = [] := by
      simpa [List.filter_eq_nil_iff] using fun i hi ↦ hkeep i (hr i hi)
    rw [hnone hs, hnone ht]

theorem Draws.filter_eq (h : Draws l s t) {keep : Instruction → Bool}
    (hkeep : ∀ i, i.tag ∈ batchedTags → keep i = false) : t.filter keep = s.filter keep := by
  obtain ⟨cuts, hcuts, rfl, rfl⟩ := h
  induction cuts with
  | nil => rfl
  | cons cut cuts ih =>
    have hfirst := (hcuts cut List.mem_cons_self).2.filter_eq hkeep
    have hrest := ih fun c hc ↦ hcuts c (List.mem_cons_of_mem cut hc)
    simp only [List.flatMap_cons, List.filter_append, hfirst, hrest]

/-- What is drawn before an instruction that belongs to no group, and after it, is drawn apart. -/
theorem Draws.split (h : Draws l (before ++ i :: after) t) (hi : i.tag ∉ batchedTags) :
    ∃ before' after', t = before' ++ i :: after' ∧ Draws l before before' ∧ Draws l after after' := by
  obtain ⟨cuts, hcuts, hs, rfl⟩ := h
  induction cuts generalizing before with
  | nil => simp at hs
  | cons cut cuts ih =>
    obtain ⟨hne, hcut⟩ := hcuts cut List.mem_cons_self
    have hrest (c : List Instruction × List Instruction) (hc : c ∈ cuts) := hcuts c (List.mem_cons_of_mem cut hc)
    have hlater (mid : List Instruction) (hbefore : before = cut.1 ++ mid)
        (hmid : cuts.flatMap (·.1) = mid ++ i :: after) : ∃ before' after',
          (cut :: cuts).flatMap (·.2) = before' ++ i :: after' ∧ Draws l before before' ∧ Draws l after after' := by
      obtain ⟨before', after', ht, hb, ha⟩ := ih hrest hmid
      refine ⟨cut.2 ++ before', after', by simp [ht], ?_, ha⟩
      rw [hbefore]
      exact Draws.append ⟨[cut], by simpa using ⟨hne, hcut⟩, by simp, by simp⟩ hb
    rw [List.flatMap_cons] at hs
    obtain ⟨mid, hbefore, hmid⟩ | ⟨mid, hfirst, hmid⟩ := List.append_eq_append_iff.1 hs
    · exact hlater mid hbefore hmid
    · cases mid with
      | nil => exact hlater [] (by simp [hfirst]) (by simpa using hmid.symm)
      | cons j mid =>
        obtain ⟨rfl, hafter⟩ := List.cons_eq_cons.1 hmid
        obtain ⟨k, hk, hk'⟩ | ⟨hbatched, -⟩ := hcut.same_or_batched
        · rw [hk] at hfirst
          obtain ⟨rfl, hfirst⟩ : before = [] ∧ [k] = i :: mid := by
            cases before with
            | nil => exact ⟨rfl, hfirst⟩
            | cons b before => simp at hfirst
          obtain ⟨rfl, rfl⟩ := List.cons_eq_cons.1 hfirst
          exact ⟨[], cuts.flatMap (·.2), by simp [hk'], .nil, cuts, hrest, by simpa using hafter.symm, rfl⟩
        · exact absurd (hbatched i (by simp [hfirst])) hi

end Outside

end DisplayList
