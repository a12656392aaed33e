import DisplayList.Proofs.Collapsible
import DisplayList.Proofs.Course

/-!
Arguments that get lost.

A batch is rebuilt from a few arguments of its groups: one of each that paints, and none of those that open or close a
scope. Nobody asks whether there are more. An instruction that has others, and so would lose some in a batch, is laden.
A stretch of the stream keeps its arguments as long as no laden instruction is taken out of it, so none are lost in a
stream if and only if the laden instructions that come out of the optimizer are those that went in.
-/

namespace DisplayList

open Columns (ofList)

def paintTags : List Tag := [.paintInlineImage, .paintImageMask, .paintImage]

def batchTags : List Tag := [.paintInlineImageGroup, .paintImageMaskRepeat, .paintImageMaskGroup, .paintImageRepeat]

/-- The tags of what a batch takes out without a trace. -/
def scopeTags : List Tag := [.save, .restore, .beginText, .endText]

/-- Whether arguments would be lost if the instruction were taken out by a batch. -/
def isLaden (i : Instruction) : Bool :=
  if i.tag ∈ paintTags then i.args.length ≠ 1 else i.tag ∈ scopeTags && !i.args.isEmpty

structure Quartet.IsPlain (g : Quartet) : Prop where
  save : g.save = []
  paint : g.paint.length = 1
  restore : g.restore = []

/-- A stretch whose form has room for all its arguments. -/
inductive Plain : List Instruction → List Instruction → Prop
  | same (i : Instruction) : Plain [i] [i]
  | solidMask (mask : Arg) : Plain [⟨.paintImageMask, [mask]⟩] [⟨.paintSolidMask, [mask]⟩]
  | batched {paint : Tag} (gs : List Quartet) (batch : Instruction) (painted : paint ∈ paintTags)
    (batched : batch.tag ∈ batchTags) (plain : ∀ g ∈ gs, g.IsPlain) :
    Plain (gs.flatMap (Quartet.instructions paint)) [batch]
  | text (w : Wrapper) (ws : List Wrapper) (starts : ∀ v ∈ ws, v.start = [])
    (stops : ∀ v ∈ (w :: ws).dropLast, v.stop = []) : Plain ((w :: ws).flatMap Wrapper.instructions) (w.merged ws)
  | joinedText (w : Wrapper) (ws : List Wrapper) (starts : ∀ v ∈ ws, v.start = [])
    (stops : ∀ v ∈ (w :: ws).dropLast, v.stop = []) :
    Plain ((w :: ws).flatMap Wrapper.instructions).tail (w.merged ws).tail

/-- The stream is cut into stretches, and their forms make up the queue. -/
def Cuts (l : Limits) (s t : List Instruction) (cuts : List (List Instruction × List Instruction)) : Prop :=
  (∀ cut ∈ cuts, cut.1 ≠ [] ∧ Rewrite l cut.1 cut.2) ∧ cuts.flatMap (·.1) = s ∧ cuts.flatMap (·.2) = t

section Laden

variable {l : Limits} {s t : List Instruction} {i : Instruction} {tag paint : Tag} {args : List Arg}
  {cuts : List (List Instruction × List Instruction)}

theorem isLaden_paint (h : tag ∈ paintTags) (args : List Arg) : isLaden ⟨tag, args⟩ = decide (args.length ≠ 1) := by
  rw [isLaden, if_pos h]

theorem isLaden_scope (h : tag ∈ scopeTags) (args : List Arg) : isLaden ⟨tag, args⟩ = !args.isEmpty := by
  have hscope : ∀ tag ∈ scopeTags, tag ∉ paintTags := by decide
  rw [isLaden, if_neg (hscope tag h), decide_eq_true h, Bool.true_and]

theorem not_isLaden (h : tag ∉ paintTags ++ scopeTags) (args : List Arg) : isLaden ⟨tag, args⟩ = false := by
  rw [List.mem_append, not_or] at h
  rw [isLaden, if_neg h.1, decide_eq_false h.2, Bool.false_and]

theorem not_isLaden_batch (h : i.tag ∈ batchTags) : isLaden i = false := by
  have hbatch : ∀ tag ∈ batchTags, tag ∉ paintTags ++ scopeTags := by decide
  exact not_isLaden (hbatch _ h) i.args

theorem filter_quartet (hp : paint ∈ paintTags) (g : Quartet) :
    (g.instructions paint).filter isLaden = [] ↔ g.IsPlain := by
  have htransform : isLaden ⟨.transform, g.transform⟩ = false := not_isLaden (by decide) _
  have hsave := isLaden_scope (show Tag.save ∈ scopeTags by decide) g.save
  have hrestore := isLaden_scope (show Tag.restore ∈ scopeTags by decide) g.restore
  simp only [Quartet.instructions, List.filter_eq_nil_iff, List.forall_mem_cons, hsave, htransform, hrestore,
    isLaden_paint hp]
  constructor
  · rintro ⟨hs, -, hpaint, hr, -⟩
    exact ⟨by simpa using hs, by simpa using hpaint, by simpa using hr⟩
  · rintro ⟨hs, hpaint, hr⟩
    simp [hs, hpaint, hr]

theorem filter_quartets (hp : paint ∈ paintTags) (gs : List Quartet) :
    (gs.flatMap (Quartet.instructions paint)).filter isLaden = [] ↔ ∀ g ∈ gs, g.IsPlain := by
  rw [List.filter_flatMap, List.flatMap_eq_nil_iff]
  exact forall₂_congr fun g _ ↦ filter_quartet hp g

theorem filter_bodies (ws : List Wrapper) : (ws.flatMap Wrapper.body).filter isLaden = [] := by
  rw [List.filter_flatMap, List.flatMap_eq_nil_iff]
  intro w _
  have hmatrix : isLaden ⟨.setTextMatrix, w.matrix⟩ = false := not_isLaden (by decide) _
  have hshown : isLaden ⟨.showText, w.shown⟩ = false := not_isLaden (by decide) _
  simp [Wrapper.body, hmatrix, hshown]

theorem filter_joints (w : Wrapper) (ws : List Wrapper) :
    (w.joints ws).filter isLaden = [] ↔ (∀ v ∈ ws, v.start = []) ∧ ∀ v ∈ (w :: ws).dropLast, v.stop = [] := by
  induction ws generalizing w with
  | nil => simp [Wrapper.joints]
  | cons v ws ih =>
    have hbody := filter_bodies [v]
    rw [List.flatMap_cons, List.flatMap_nil, List.append_nil] at hbody
    have hstop := isLaden_scope (show Tag.endText ∈ scopeTags by decide) w.stop
    have hstart := isLaden_scope (show Tag.beginText ∈ scopeTags by decide) v.start
    have hfont : isLaden ⟨.setFont, v.font⟩ = false := not_isLaden (by decide) _
    have hends : (w.closing ++ v.opening).filter isLaden = [] ↔ w.stop = [] ∧ v.start = [] := by
      simp [Wrapper.closing, Wrapper.opening, List.filter_eq_nil_iff, hstop, hstart, hfont]
    rw [Wrapper.joints, List.filter_append, List.filter_append, List.append_eq_nil_iff, List.append_eq_nil_iff, hends,
      hbody, ih, List.dropLast_cons_cons, List.forall_mem_cons, List.forall_mem_cons]
    tauto

theorem filter_texts (front : List Instruction) (w : Wrapper) (ws : List Wrapper) (back : List Instruction) :
    (front ++ w.body ++ w.joints ws ++ back).filter isLaden =
        front.filter isLaden ++ (w.joints ws).filter isLaden ++ back.filter isLaden ∧
      (front ++ (w :: ws).flatMap Wrapper.body ++ back).filter isLaden =
        front.filter isLaden ++ back.filter isLaden := by
  have hbody := filter_bodies [w]
  rw [List.flatMap_cons, List.flatMap_nil, List.append_nil] at hbody
  simp only [List.filter_append, hbody, filter_bodies, List.append_nil, and_self]

theorem filter_merged_eq_iff (front : List Instruction) (w : Wrapper) (ws : List Wrapper) (back : List Instruction) :
    (front ++ (w :: ws).flatMap Wrapper.body ++ back).filter isLaden =
        (front ++ w.body ++ w.joints ws ++ back).filter isLaden ↔
      (∀ v ∈ ws, v.start = []) ∧ ∀ v ∈ (w :: ws).dropLast, v.stop = [] := by
  obtain ⟨hs, ht⟩ := filter_texts front w ws back
  rw [hs, ht, ← filter_joints, List.append_assoc, List.append_right_inj]
  constructor
  · intro h
    exact List.self_eq_append_left.1 h
  · intro h
    rw [h, List.nil_append]

theorem Plain.filter_eq (h : Plain s t) : t.filter isLaden = s.filter isLaden := by
  cases h with
  | same => rfl
  | solidMask mask =>
    have hmask := isLaden_paint (show Tag.paintImageMask ∈ paintTags by decide) [mask]
    have hsolid : isLaden ⟨.paintSolidMask, [mask]⟩ = false := not_isLaden (by decide) _
    simp [hmask, hsolid]
  | batched gs batch painted batched plain =>
    rw [(filter_quartets painted gs).2 plain]
    simp [not_isLaden_batch batched]
  | text w ws starts stops =>
    rw [Wrapper.flatMap_instructions]
    exact (filter_merged_eq_iff w.opening w ws _).2 ⟨starts, stops⟩
  | joinedText w ws starts stops =>
    rw [Wrapper.flatMap_instructions]
    exact (filter_merged_eq_iff w.opening.tail w ws _).2 ⟨starts, stops⟩

theorem Rewrite.filter_sublist (h : Rewrite l s t) :
    (t.filter isLaden).Sublist (s.filter isLaden) ∧ (t.filter isLaden = s.filter isLaden → Plain s t) := by
  have hbatched {paint : Tag} {batch : Instruction} (gs : List Quartet) (hp : paint ∈ paintTags)
      (hb : batch.tag ∈ batchTags) : ([batch].filter isLaden).Sublist
        ((gs.flatMap (Quartet.instructions paint)).filter isLaden) ∧
      ([batch].filter isLaden = (gs.flatMap (Quartet.instructions paint)).filter isLaden →
        Plain (gs.flatMap (Quartet.instructions paint)) [batch]) := by
    have hnone : [batch].filter isLaden = [] := by simp [not_isLaden_batch hb]
    rw [hnone]
    refine ⟨List.nil_sublist _, fun heq ↦ .batched gs batch hp hb ?_⟩
    exact (filter_quartets hp gs).1 heq.symm
  have hmerged (front : List Instruction) (w : Wrapper) (ws : List Wrapper) (back : List Instruction) :
      ((front ++ (w :: ws).flatMap Wrapper.body ++ back).filter isLaden).Sublist
        ((front ++ w.body ++ w.joints ws ++ back).filter isLaden) := by
    obtain ⟨hs, ht⟩ := filter_texts front w ws back
    rw [hs, ht]
    exact (List.sublist_append_left _ _).append (List.Sublist.refl _)
  cases h with
  | same i => exact ⟨.refl _, fun _ ↦ .same i⟩
  | solidMask mask =>
    have hplain := Plain.solidMask (.image mask)
    rw [hplain.filter_eq]
    exact ⟨.refl _, fun _ ↦ hplain⟩
  | imageRepeat g gs => exact hbatched (g :: gs) (by decide) (by simp [batchTags])
  | maskRepeat mask g gs => exact hbatched (g :: gs) (by decide) (by simp [batchTags])
  | maskGroup gs => exact hbatched gs (by decide) (by simp [batchTags])
  | inlineGroup gs => exact hbatched gs (by decide) (by simp [batchTags])
  | text w ws =>
    refine ⟨?_, fun heq ↦ ?_⟩
    · rw [Wrapper.flatMap_instructions]
      exact hmerged w.opening w ws _
    · rw [Wrapper.flatMap_instructions] at heq
      obtain ⟨hstarts, hstops⟩ := (filter_merged_eq_iff w.opening w ws _).1 heq
      exact .text w ws hstarts hstops
  | joinedText w₀ w ws =>
    refine ⟨?_, fun heq ↦ ?_⟩
    · rw [Wrapper.flatMap_instructions]
      exact hmerged w₀.opening.tail w₀ (w :: ws) _
    · rw [Wrapper.flatMap_instructions] at heq
      obtain ⟨hstarts, hstops⟩ := (filter_merged_eq_iff w₀.opening.tail w₀ (w :: ws) _).1 heq
      exact .joinedText w₀ (w :: ws) hstarts hstops

theorem filter_sublist_of_cuts (h : ∀ cut ∈ cuts, Rewrite l cut.1 cut.2) :
    ((cuts.flatMap (·.2)).filter isLaden).Sublist ((cuts.flatMap (·.1)).filter isLaden) := by
  induction cuts with
  | nil => exact .slnil
  | cons cut cuts ih =>
    obtain ⟨hcut, hrest⟩ := List.forall_mem_cons.1 h
    simp only [List.flatMap_cons, List.filter_append]
    exact hcut.filter_sublist.1.append (ih hrest)

theorem plain_iff_of_cuts (h : ∀ cut ∈ cuts, Rewrite l cut.1 cut.2) :
    (∀ cut ∈ cuts, Plain cut.1 cut.2) ↔
      (cuts.flatMap (·.2)).filter isLaden = (cuts.flatMap (·.1)).filter isLaden := by
  induction cuts with
  | nil => simp
  | cons cut cuts ih =>
    obtain ⟨hcut, hrest⟩ := List.forall_mem_cons.1 h
    simp only [List.forall_mem_cons, List.flatMap_cons, List.filter_append, ih hrest]
    constructor
    · rintro ⟨hplain, heq⟩
      rw [hplain.filter_eq, heq]
    · intro heq
      -- Neither part of the queue holds more than its part of the stream, so the parts are the same.
      have hlengths := congrArg List.length heq
      rw [List.length_append, List.length_append] at hlengths
      have hle := hcut.filter_sublist.1.length_le
      have hle' := (filter_sublist_of_cuts hrest).length_le
      obtain ⟨hfirst, hothers⟩ := List.append_inj heq (by omega)
      exact ⟨hcut.filter_sublist.2 hfirst, hothers⟩

end Laden

namespace Optimizer

open Pattern

variable {l : Limits}

/-- What is laden in the queue was pushed, in this order. However the stream is cut, no arguments are lost if and only
if all that is laden comes out of the optimizer. -/
theorem arguments_kept_iff (hl : l.violation? = none) (is : List Instruction) :
    ((optimized l is).toList.filter isLaden).Sublist (is.filter isLaden) ∧
      (∃ cuts, Cuts l is (optimized l is).toList cuts) ∧
      ∀ cuts, Cuts l is (optimized l is).toList cuts →
        ((∀ cut ∈ cuts, Plain cut.1 cut.2) ↔ (optimized l is).toList.filter isLaden = is.filter isLaden) := by
  obtain ⟨q, hq, cuts, hcuts⟩ := exists_optimized hl is
  rw [hq, Columns.toList_ofList]
  refine ⟨?_, ⟨cuts, hcuts⟩, fun cuts hcuts ↦ ?_⟩
  · obtain ⟨hrewrites, rfl, rfl⟩ := hcuts
    exact filter_sublist_of_cuts fun cut hcut ↦ (hrewrites cut hcut).2
  · obtain ⟨hrewrites, rfl, rfl⟩ := hcuts
    exact plain_iff_of_cuts fun cut hcut ↦ (hrewrites cut hcut).2

theorem arguments_kept_iff_scattered :
    ({} : Limits).violation? = none ∧
      ((optimized {} scattered).toList.filter isLaden).Sublist (scattered.filter isLaden) ∧
      (∃ cuts, Cuts {} scattered (optimized {} scattered).toList cuts) ∧
      ∀ cuts, Cuts {} scattered (optimized {} scattered).toList cuts →
        ((∀ cut ∈ cuts, Plain cut.1 cut.2) ↔
          (optimized {} scattered).toList.filter isLaden = scattered.filter isLaden) :=
  ⟨by decide, arguments_kept_iff (by decide) scattered⟩

def labelledImage (k : Nat) : Quartet :=
  ⟨[], [.int 1, .int 0, .int 0, .int 1, .int (Int.ofNat k), .int 0], [.name "image", .int 7], []⟩

def labelledImages : List Instruction :=
  [labelledImage 0, labelledImage 1, labelledImage 2].flatMap (Quartet.instructions .paintImage)

theorem optimized_labelledImages : (optimized {} labelledImages).toList =
    [⟨.paintImageRepeat, (labelledImage 0).repeated [labelledImage 1, labelledImage 2]⟩] := by
  have hsubject (k : Nat) : sameSubject (labelledImage 0).paint (labelledImage k).paint := by
    change Arg.eqv (.name "image") (.name "image")
    rw [Arg.eqv, beq_self_eq_true]
  have halike : ∀ g ∈ [labelledImage 1, labelledImage 2],
      sameScale (labelledImage 0).transform g.transform ∧ sameSubject (labelledImage 0).paint g.paint := by
    simp only [List.forall_mem_cons, hsubject, and_true]
    decide
  have hrun : images.IsRun labelledImages 0 labelledImages.length := by
    have h := isRun_images [] [] (show isUpright (labelledImage 0).transform by decide) halike
    rwa [List.nil_append, List.append_nil] at h
  have hbatch := batchImages_eq (l := {}) (n := 2) hrun (by decide) (by decide)
  have hrest : AtRest [⟨.paintImageRepeat, (labelledImage 0).repeated [labelledImage 1, labelledImage 2]⟩] 1 := by
    intro p i hi hopens
    have hwithin := hopens.group.within
    have hpos := p.period_pos
    rw [List.length_singleton] at hwithin
    omega
  rw [(optimized_eq_iff (by decide)).2 (.of_run hrun hbatch hrest), Columns.toList_ofList]
  rfl

/-- However the labelled images are taken to be cut, something is batched that no batch has room for. -/
theorem labels_lost :
    ({} : Limits).violation? = none ∧
      (∃ cuts, Cuts {} labelledImages (optimized {} labelledImages).toList cuts) ∧
      ∀ cuts, Cuts {} labelledImages (optimized {} labelledImages).toList cuts → ∃ cut ∈ cuts, ¬ Plain cut.1 cut.2 := by
  refine ⟨by decide, ?_, ?_⟩
  · obtain ⟨q, hq, hdraws⟩ := exists_optimized (l := {}) (by decide) labelledImages
    rw [hq, Columns.toList_ofList]
    exact hdraws
  · rw [optimized_labelledImages]
    rintro cuts ⟨hrewrites, hstream, hqueue⟩
    by_contra hnone
    have hplain : ∀ cut ∈ cuts, Plain cut.1 cut.2 := fun cut hcut ↦
      by_contra fun hlost ↦ hnone ⟨cut, hcut, hlost⟩
    have hkept := (plain_iff_of_cuts fun cut hcut ↦ (hrewrites cut hcut).2).1 hplain
    rw [hstream, hqueue] at hkept
    have hlengths := congrArg List.length hkept
    revert hlengths
    decide

end Optimizer

end DisplayList
