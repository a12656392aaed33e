import DisplayList.Optimizer
import DisplayList.Proofs.Queue
import Mathlib.Logic.Relation

namespace DisplayList

open Columns (ofList)
open Relation (ReflTransGen)

structure Limits.FillBatches (l : Limits) : Prop where
  inlineImages : 0 < l.minInlineImages
  images : 0 < l.minImages
  imageMasks : 0 < l.minImageMasks ∧ 0 < l.maxImageMasks ∧ 0 < l.maxSameImageMasks

theorem Limits.Valid.fillBatches {l : Limits} (h : l.Valid) : l.FillBatches where
  inlineImages := h.inlineImages.1
  images := h.images.1
  imageMasks := ⟨h.imageMasks.1, h.imageMasks.1.trans_le h.imageMasks.2, h.imageMasks.1.trans_le h.sameImageMasks⟩

/-- The instructions that groups give way to. An atlas is packed for the one that paints it. -/
inductive IsBatch (l : Limits) : Instruction → Prop
  | imageRepeat (args : List Arg) : IsBatch l ⟨.paintImageRepeat, args⟩
  | maskRepeat (args : List Arg) : IsBatch l ⟨.paintImageMaskRepeat, args⟩
  | maskGroup (args : List Arg) : IsBatch l ⟨.paintImageMaskGroup, args⟩
  | inlineGroup (items : List AtlasItem) (atlas : Atlas)
    (packed : Atlas.pack items l.maxAtlasWidth l.atlasPadding = .ok atlas) :
    IsBatch l ⟨.paintInlineImageGroup, [.image ⟨none, atlas.image⟩, .placements atlas.placements]⟩

inductive Edit (l : Limits) : List Instruction → List Instruction → Prop
  | batch (pre mid post : List Instruction) (i : Instruction) (batch : IsBatch l i)
    (filled : l.FillBatches → mid ≠ []) : Edit l (pre ++ mid ++ post) (pre ++ i :: post)
  | join (pre mid kept post : List Instruction) (front : pre ≠ []) (part : kept.Sublist mid) :
    Edit l (pre ++ mid ++ post) (pre ++ kept ++ post)
  | retag (pre post : List Instruction) (i : Instruction) :
    Edit l (pre ++ i :: post) (pre ++ { i with tag := .paintSolidMask } :: post)

/-- The columns hold what has come of a queue by edits. -/
def Edited (l : Limits) (q : List Instruction) (c : Columns) : Prop := ∃ q', c = ofList q' ∧ ReflTransGen (Edit l) q q'

section Edits

variable {l : Limits} {q q' : List Instruction} {c c' : Columns} {start stop : Nat} {tag : Tag} {args : List Arg}

theorem Edited.refl (l : Limits) (q : List Instruction) : Edited l q (ofList q) := ⟨q, rfl, .refl⟩

theorem Edit.append (h : Edit l q q') (r : List Instruction) : Edit l (q ++ r) (q' ++ r) := by
  cases h with
  | batch pre mid post i batch filled =>
    simpa using Edit.batch pre mid (post ++ r) i batch filled
  | join pre mid kept post front part =>
    simpa using Edit.join pre mid kept (post ++ r) front part
  | retag pre post i =>
    simpa using Edit.retag pre (post ++ r) i

theorem edits_append (h : ReflTransGen (Edit l) q q') (r : List Instruction) :
    ReflTransGen (Edit l) (q ++ r) (q' ++ r) := by
  induction h with
  | refl => exact .refl
  | tail _ hedit ih => exact ih.tail (hedit.append r)

theorem Edit.length_le (hl : l.FillBatches) (h : Edit l q q') : q'.length ≤ q.length := by
  cases h with
  | batch pre mid post i _ filled =>
    have hmid := List.length_pos_iff.2 (filled hl)
    simp only [List.length_append, List.length_cons]
    omega
  | join pre mid kept post _ part =>
    have hpart := part.length_le
    simp only [List.length_append]
    omega
  | retag => simp

theorem Edit.ne_nil (h : Edit l q q') : q' ≠ [] := by
  cases h with
  | batch | retag => simp
  | join _ _ _ _ front => simp [front]

theorem length_le_of_edits (hl : l.FillBatches) (h : ReflTransGen (Edit l) q q') : q'.length ≤ q.length := by
  induction h with
  | refl => exact le_rfl
  | tail _ hedit ih => exact (hedit.length_le hl).trans ih

theorem ne_nil_of_edits (h : ReflTransGen (Edit l) q q') (hq : q ≠ []) : q' ≠ [] := by
  cases h with
  | refl => exact hq
  | tail _ hedit => exact hedit.ne_nil

end Edits

section Checked

variable {q : List Instruction} {c : Columns} {start stop : Nat} {tag : Tag} {args : List Arg}

theorem exists_stretch (hle : start ≤ stop) (hstop : stop ≤ q.length) :
    ∃ pre mid post, q = pre ++ mid ++ post ∧ pre.length = start ∧ pre.length + mid.length = stop := by
  refine ⟨q.take start, (q.drop start).take (stop - start), q.drop stop, ?_, ?_, ?_⟩
  · rw [List.append_assoc]
    conv_lhs => rw [← List.take_append_drop start q, ← List.take_append_drop (stop - start) (q.drop start),
      List.drop_drop, Nat.add_sub_cancel' hle]
  · rw [List.length_take, Nat.min_eq_left (hle.trans hstop)]
  · rw [List.length_take, List.length_take, List.length_drop]
    omega

theorem exists_of_replaceIn (h : (ofList q).replaceIn start stop tag args = .ok c) :
    ∃ pre mid post, q = pre ++ mid ++ post ∧ pre.length + mid.length = stop ∧ pre.length = start ∧
      c = ofList (pre ++ ⟨tag, args⟩ :: post) := by
  have hholds : (ofList q).Holds start stop := by
    by_contra hno
    rw [Columns.replaceIn, if_neg hno] at h
    cases h
  obtain ⟨hle, hstop, -⟩ := hholds
  obtain ⟨pre, mid, post, rfl, rfl, rfl⟩ := exists_stretch hle (hstop.trans (Columns.size_ofList q).le)
  rw [Columns.replaceIn_ofList] at h
  exact ⟨pre, mid, post, rfl, rfl, rfl, (Except.ok.inj h).symm⟩

theorem exists_of_retainIn {keep : Nat → Bool} (h : (ofList q).retainIn start stop keep = .ok c) :
    ∃ pre mid post, q = pre ++ mid ++ post ∧ pre.length + mid.length = stop ∧ pre.length = start ∧
      c = ofList (pre ++ keptFrom keep 0 mid ++ post) := by
  have hholds : (ofList q).Holds start stop := by
    by_contra hno
    rw [Columns.retainIn, if_neg hno] at h
    cases h
  obtain ⟨hle, hstop, -⟩ := hholds
  obtain ⟨pre, mid, post, rfl, rfl, rfl⟩ := exists_stretch hle (hstop.trans (Columns.size_ofList q).le)
  rw [Columns.retainIn_ofList] at h
  exact ⟨pre, mid, post, rfl, rfl, rfl, (Except.ok.inj h).symm⟩

theorem exists_of_retagAt {k : Nat} (h : (ofList q).retagAt k tag = .ok c) :
    ∃ pre i post, q = pre ++ i :: post ∧ pre.length = k ∧ c = ofList (pre ++ { i with tag } :: post) := by
  have hlt : k < q.length := by
    by_contra hno
    rw [Columns.retagAt, if_neg (by rw [← Columns.size, Columns.size_ofList]; exact hno)] at h
    cases h
  obtain ⟨pre, mid, post, rfl, rfl, hmid⟩ := exists_stretch (Nat.le_succ k) hlt
  obtain ⟨i, rfl⟩ := List.length_eq_one_iff.1 (show mid.length = 1 by omega)
  rw [List.append_assoc, List.singleton_append, Columns.retagAt_ofList] at h
  exact ⟨pre, i, post, by simp, rfl, (Except.ok.inj h).symm⟩

theorem keptFrom_sublist {α : Type} (keep : Nat → Bool) (k : Nat) (xs : List α) : (keptFrom keep k xs).Sublist xs := by
  induction xs generalizing k with
  | nil => exact .slnil
  | cons x xs ih =>
    rw [keptFrom]
    split
    · exact (ih (k + 1)).cons_cons x
    · exact (ih (k + 1)).cons x

end Checked

namespace Pattern

variable {l : Limits} {q : List Instruction} {p : Pattern} {first stop n : Nat} {b : Batching} {tag : Tag}
  {args : List Arg}

theorem edited_of_leave (h : p.leave (ofList q) first stop = .ok b) : Edited l q b.columns := by
  obtain ⟨length, -, h⟩ := bind_eq_ok h
  obtain ⟨resume, -, h⟩ := bind_eq_ok h
  cases h
  exact .refl l q

theorem edited_of_collapse (hbatch : IsBatch l ⟨tag, args⟩) (hn : l.FillBatches → 0 < n)
    (h : collapse (ofList q) first n tag args = .ok b) : Edited l q b.columns := by
  obtain ⟨c, hc, h⟩ := bind_eq_ok h
  cases h
  obtain ⟨pre, mid, post, rfl, hmid, rfl, rfl⟩ := exists_of_replaceIn hc
  refine ⟨_, rfl, .single (.batch pre mid post _ hbatch fun hl ↦ ?_)⟩
  have hn := hn hl
  rw [← List.length_pos_iff]
  omega

theorem batchInlineImages_edited (h : batchInlineImages l (ofList q) first stop = .ok b) : Edited l q b.columns := by
  obtain ⟨length, -, h⟩ := bind_eq_ok h
  dsimp only at h
  split at h
  · exact edited_of_leave h
  rename_i hleast
  obtain ⟨transforms, -, h⟩ := bind_eq_ok h
  obtain ⟨paints, -, h⟩ := bind_eq_ok h
  split at h
  · exact edited_of_leave h
  · obtain ⟨atlas, hatlas, h⟩ := bind_eq_ok h
    exact edited_of_collapse (.inlineGroup _ atlas hatlas)
      (fun hl ↦ hl.inlineImages.trans_le (Nat.le_of_not_lt hleast)) h

theorem batchImages_edited (h : batchImages l (ofList q) first stop = .ok b) : Edited l q b.columns := by
  obtain ⟨length, -, h⟩ := bind_eq_ok h
  dsimp only at h
  split at h
  · exact edited_of_leave h
  rename_i hleast
  obtain ⟨transforms, -, h⟩ := bind_eq_ok h
  obtain ⟨paint, -, h⟩ := bind_eq_ok h
  exact edited_of_collapse (.imageRepeat _) (fun hl ↦ hl.images.trans_le (Nat.le_of_not_lt hleast)) h

theorem collapseMasks_edited (hn : l.FillBatches → 0 < n) (h : collapseMasks l (ofList q) first stop n = .ok b) :
    Edited l q b.columns := by
  obtain ⟨transforms, -, h⟩ := bind_eq_ok h
  obtain ⟨paints, -, h⟩ := bind_eq_ok h
  obtain ⟨paint, -, h⟩ := bind_eq_ok h
  split at h
  · exact edited_of_leave h
  dsimp only at h
  split at h
  · exact edited_of_collapse (.maskRepeat _) (fun hl ↦ Nat.lt_min.2 ⟨Nat.succ_pos _, hl.imageMasks.2.2⟩) h
  · split at h
    · exact edited_of_leave h
    · exact edited_of_collapse (.maskGroup _) (fun hl ↦ Nat.lt_min.2 ⟨hn hl, hl.imageMasks.2.1⟩) h

theorem retagAll_edited {ks : List Nat} {place : Nat → Nat} {c : Columns}
    (h : ks.foldlM (fun c k ↦ c.retagAt (place k) .paintSolidMask) (ofList q) = .ok c) : Edited l q c := by
  induction ks generalizing q with
  | nil =>
    rw [← Except.ok.inj h]
    exact .refl l q
  | cons k ks ih =>
    obtain ⟨c₁, h₁, h⟩ := bind_eq_ok h
    obtain ⟨pre, i, post, rfl, -, rfl⟩ := exists_of_retagAt h₁
    obtain ⟨q', hq, hedits⟩ := ih h
    exact ⟨q', hq, .head (.retag pre post i) hedits⟩

theorem batchImageMasks_edited (h : batchImageMasks l (ofList q) first stop = .ok b) : Edited l q b.columns := by
  obtain ⟨length, -, h⟩ := bind_eq_ok h
  obtain ⟨paints, -, h⟩ := bind_eq_ok h
  obtain ⟨c, hc, h⟩ := bind_eq_ok h
  obtain ⟨count, -, h⟩ := bind_eq_ok h
  obtain ⟨q', rfl, hretagged⟩ := retagAll_edited (l := l) hc
  have hrest : Edited l q' b.columns := by
    split at h
    · exact edited_of_leave h
    · rename_i hleast
      exact collapseMasks_edited (fun hl ↦ hl.imageMasks.1.trans_le (Nat.le_of_not_lt hleast)) h
  obtain ⟨q'', hq, hedits⟩ := hrest
  exact ⟨q'', hq, hretagged.trans hedits⟩

theorem four_le_of_endsSameText {c : Columns} (h : endsSameText c first = .ok true) : 4 ≤ first := by
  rw [endsSameText] at h
  split at h
  · cases h
  · omega

theorem edited_of_retainIn {keep : Nat → Bool} {c : Columns} (hpos : 0 < first)
    (h : (ofList q).retainIn first stop keep = .ok c) : Edited l q c := by
  obtain ⟨pre, mid, post, rfl, -, rfl, rfl⟩ := exists_of_retainIn h
  exact ⟨_, rfl, .single (.join pre mid _ post (List.length_pos_iff.1 hpos) (keptFrom_sublist keep 0 mid))⟩

theorem batchGlyphRuns_edited (h : batchGlyphRuns l (ofList q) first stop = .ok b) : Edited l q b.columns := by
  obtain ⟨length, -, h⟩ := bind_eq_ok h
  dsimp only at h
  split at h
  · exact edited_of_leave h
  obtain ⟨joins, hjoins, h⟩ := bind_eq_ok h
  split at h
  · rename_i htrue
    rw [htrue] at hjoins
    have hfour := four_le_of_endsSameText hjoins
    rw [distance_ok (by omega), ok_bind] at h
    obtain ⟨joints, -, h⟩ := bind_eq_ok h
    obtain ⟨c, hc, h⟩ := bind_eq_ok h
    cases h
    exact edited_of_retainIn (by omega) hc
  · rw [pure_eq_ok, ok_bind] at h
    obtain ⟨joints, -, h⟩ := bind_eq_ok h
    obtain ⟨c, hc, h⟩ := bind_eq_ok h
    cases h
    exact edited_of_retainIn (Nat.succ_pos _) hc

theorem batch_edited (h : p.batch l (ofList q) first stop = .ok b) : Edited l q b.columns := by
  cases p with
  | inlineImages => exact batchInlineImages_edited h
  | imageMasks => exact batchImageMasks_edited h
  | images => exact batchImages_edited h
  | glyphRuns => exact batchGlyphRuns_edited h

end Pattern

namespace Optimizer

variable {o : Optimizer} {l : Limits} {c : Columns} {q : List Instruction} {s : Optimizer × Columns}

def HasEdited (l : Limits) (q : List Instruction) (s : Optimizer × Columns) : Prop := s.1.limits = l ∧ Edited l q s.2

theorem HasEdited.of_edited (hc : Edited l q c)
    (h : ∀ q', c = ofList q' → HasEdited l q' s) : HasEdited l q s := by
  obtain ⟨q', hq', hedits⟩ := hc
  obtain ⟨hlimits, q'', hq'', hedits'⟩ := h q' hq'
  exact ⟨hlimits, q'', hq'', hedits.trans hedits'⟩

theorem scan_edited (o : Optimizer) (c : Columns) (hc : c = ofList q) (h : o.scan c = .ok s) :
    HasEdited o.limits q s := by
  induction o, c using scan.induct generalizing q with
  | case1 o c hlt run hrun ihFollow ihBatch =>
    rw [scan, dif_pos hlt] at h
    split at h
    · rename_i run' hrun'
      obtain rfl : run = run' := Option.some.inj (hrun.symm.trans hrun')
      obtain ⟨continues, -, h⟩ := bind_eq_ok h
      split at h
      · exact ihFollow hc h
      · obtain ⟨r, hr, h⟩ := bind_eq_ok h
        split at h
        · rename_i hless
          rw [hc] at hr
          exact .of_edited (Pattern.batch_edited hr) fun q' hq' ↦ ihBatch r hless hq' h
        · cases h
    · rename_i hrun'
      cases hrun.symm.trans hrun'
  | case2 o c hlt hrun ihMiss ihLead ihEnter ihRefuse =>
    rw [scan, dif_pos hlt] at h
    split at h
    · rename_i run' hrun'
      cases hrun.symm.trans hrun'
    · obtain ⟨tag, -, h⟩ := bind_eq_ok h
      split at h
      · exact ihMiss hc h
      · rename_i l hread
        exact ihLead tag l hread hc h
      · rename_i p hread
        split at h
        · rename_i hperiod
          obtain ⟨opens, -, h⟩ := bind_eq_ok h
          split at h
          · exact ihEnter tag p hread hperiod hc h
          · exact ihRefuse tag p hread hc h
        · cases h
  | case3 o c hge =>
    rw [scan, dif_neg hge] at h
    cases h
    exact ⟨rfl, q, hc, .refl⟩

theorem settle_edited (o : Optimizer) (c : Columns) (hc : c = ofList q) (h : o.settle c = .ok s) :
    HasEdited o.limits q s := by
  induction o, c using settle.induct generalizing q with
  | case1 o c run hrun ih =>
    rw [settle] at h
    split at h
    · obtain ⟨r, hr, h⟩ := bind_eq_ok h
      obtain ⟨s₁, hscan, h⟩ := bind_eq_ok h
      split at h
      · rename_i hless
        rw [hc] at hr
        refine .of_edited (Pattern.batch_edited hr) fun q' hq' ↦ ?_
        obtain ⟨hlimits, hs₁⟩ := scan_edited _ _ hq' hscan
        refine .of_edited hs₁ fun q'' hq'' ↦ ?_
        have hrest := ih s₁ hless hq'' h
        rwa [hlimits] at hrest
      · cases h
    · rename_i hrun'
      cases hrun.symm.trans hrun'
  | case2 o c hrun =>
    rw [settle] at h
    split at h
    · rename_i run' hrun'
      cases hrun.symm.trans hrun'
    · cases h
      exact ⟨rfl, q, hc, .refl⟩

theorem push_edited (o : Optimizer) (q : List Instruction) (i : Instruction) :
    HasEdited o.limits (q ++ [i]) (o.push (ofList q) i.tag i.args) := by
  rw [push, Columns.push_ofList]
  cases h : o.scanLast (ofList (q ++ [i])) with
  | error e => exact ⟨rfl, .refl _ _⟩
  | ok s =>
    rw [scanLast] at h
    split at h
    · cases h
      exact ⟨rfl, .refl _ _⟩
    · exact scan_edited o _ rfl h

theorem flush_edited (o : Optimizer) (q : List Instruction) : HasEdited o.limits q (o.flush (ofList q)) := by
  rw [flush]
  cases h : o.settle (ofList q) with
  | error e => exact ⟨rfl, .refl _ _⟩
  | ok s => exact settle_edited o _ rfl h

end Optimizer

end DisplayList
