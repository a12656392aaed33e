import DisplayList.Proofs.Collapsible
import DisplayList.Proofs.Course
import Mathlib.Algebra.Order.BigOperators.Group.List

namespace DisplayList

open Columns (ofList)

/-- What tells texts apart: what is shown, and where texts end. -/
def textMarks (is : List Instruction) : List Tag := (is.map (·.tag)).filter (· ∈ [Tag.showText, .endText])

/-- The number of texts that end in the stream, for each end of a text in the queue, if `n` more have ended before. -/
def gather (n : Nat) : List Tag → List Tag → List Nat
  | [], _ => []
  | mark :: stream, queue =>
    if mark = .endText then
      if queue.head? = some .endText then (n + 1) :: gather 0 stream queue.tail else gather (n + 1) stream queue
    else gather n stream queue.tail

/-- How many texts of the stream each text of the queue is made of. -/
def gathered (stream queue : List Instruction) : List Nat := gather 0 (textMarks stream) (textMarks queue)

def endCount (is : List Instruction) : Nat := (is.map (·.tag)).count .endText

section Marks

variable {paint : Tag}

theorem textMarks_append (is js : List Instruction) : textMarks (is ++ js) = textMarks is ++ textMarks js := by
  rw [textMarks, List.map_append, List.filter_append, textMarks, textMarks]

theorem count_textMarks (is : List Instruction) : (textMarks is).count .endText = endCount is := by
  rw [textMarks, List.count_filter (by decide), endCount]

theorem textMarks_quartets (hp : paint ∉ [Tag.showText, .endText]) (gs : List Quartet) :
    textMarks (gs.flatMap (Quartet.instructions paint)) = [] := by
  induction gs with
  | nil => rfl
  | cons g gs ih =>
    have hpaint : textMarks [⟨paint, g.paint⟩] = [] := List.filter_cons_of_neg (by simpa using hp)
    have hquartet : g.instructions paint =
      [⟨.save, g.save⟩, ⟨.transform, g.transform⟩] ++ [⟨paint, g.paint⟩] ++ [⟨.restore, g.restore⟩] := rfl
    rw [List.flatMap_cons, textMarks_append, ih, hquartet, textMarks_append, textMarks_append, hpaint]
    rfl

theorem textMarks_bodies (ws : List Wrapper) :
    textMarks (ws.flatMap Wrapper.body) = List.replicate ws.length .showText := by
  induction ws with
  | nil => rfl
  | cons w ws ih =>
    rw [List.flatMap_cons, textMarks_append, ih]
    rfl

theorem textMarks_texts (ws : List Wrapper) :
    textMarks (ws.flatMap Wrapper.instructions) = (List.replicate ws.length [.showText, .endText]).flatten := by
  induction ws with
  | nil => rfl
  | cons w ws ih =>
    rw [List.flatMap_cons, textMarks_append, ih]
    rfl

theorem textMarks_merged (w : Wrapper) (ws : List Wrapper) :
    textMarks (w.merged ws) = List.replicate (ws.length + 1) .showText ++ [.endText] := by
  rw [Wrapper.merged, textMarks_append, textMarks_append, textMarks_bodies]
  rfl

theorem gather_same (marks stream queue : List Tag) :
    gather 0 (marks ++ stream) (marks ++ queue) =
      List.replicate (marks.count .endText) 1 ++ gather 0 stream queue := by
  induction marks with
  | nil => rfl
  | cons mark marks ih =>
    by_cases h : mark = .endText
    · simp [gather, h, ih, List.replicate_succ]
    · simp [gather, h, ih]

theorem gather_shown (n : Nat) (stream queue : List Tag) :
    gather n (.showText :: stream) (.showText :: queue) = gather n stream queue := rfl

theorem gather_end (n : Nat) (stream queue : List Tag) :
    gather n (.endText :: stream) (.endText :: queue) = (n + 1) :: gather 0 stream queue := rfl

theorem gather_joint (n : Nat) (stream queue : List Tag) :
    gather n (.endText :: stream) (.showText :: queue) = gather (n + 1) stream (.showText :: queue) := rfl

theorem gather_texts (n k : Nat) (stream queue : List Tag) :
    gather n ((List.replicate (k + 1) [.showText, .endText]).flatten ++ stream)
        (List.replicate (k + 1) .showText ++ .endText :: queue) =
      (n + k + 1) :: gather 0 stream queue := by
  induction k generalizing n with
  | zero => exact (gather_shown n _ _).trans (gather_end n stream queue)
  | succ k ih =>
    have hrest := ih (n + 1)
    rw [Nat.add_right_comm n 1 k] at hrest
    rw [← Nat.add_assoc, ← hrest]
    exact (gather_shown n _ _).trans (gather_joint n _ _)

end Marks

section Gathered

variable {l : Limits} {s t s' t' : List Instruction} {k : Nat}

structure Merges (s t : List Instruction) (k : Nat) : Prop where
  pos : 0 < k
  stream : textMarks s = (List.replicate k [.showText, .endText]).flatten
  queue : textMarks t = List.replicate k .showText ++ [.endText]

theorem Wrapper.merges (w : Wrapper) (ws : List Wrapper) :
    Merges ((w :: ws).flatMap Wrapper.instructions) (w.merged ws) (ws.length + 1) :=
  ⟨Nat.succ_pos _, textMarks_texts (w :: ws), textMarks_merged w ws⟩

theorem Wrapper.merges_tail (w : Wrapper) (ws : List Wrapper) :
    Merges ((w :: ws).flatMap Wrapper.instructions).tail (w.merged ws).tail (ws.length + 1) :=
  ⟨Nat.succ_pos _, (w.merges ws).stream, (w.merges ws).queue⟩

theorem gathered_same (h : textMarks t = textMarks s) (s' t' : List Instruction) :
    gathered (s ++ s') (t ++ t') = List.replicate (endCount s) 1 ++ gathered s' t' := by
  rw [gathered, textMarks_append, textMarks_append, h, gather_same, count_textMarks, gathered]

theorem Merges.gathered_append (h : Merges s t k) (s' t' : List Instruction) :
    gathered (s ++ s') (t ++ t') = k :: gathered s' t' := by
  obtain ⟨n, rfl⟩ := Nat.exists_eq_add_one.2 h.pos
  rw [gathered, textMarks_append, textMarks_append, h.stream, h.queue, List.append_assoc, List.singleton_append,
    gather_texts, Nat.zero_add, gathered]

theorem gathered_nil : gathered [] [] = [] := rfl

theorem gathered_eq (h : textMarks t = textMarks s) : gathered s t = List.replicate (endCount s) 1 := by
  have h := gathered_same h [] []
  rwa [List.append_nil, List.append_nil, gathered_nil, List.append_nil] at h

theorem eq_one_of_mem_gathered {n : Nat} (h : n ∈ gathered s s) : n = 1 := by
  rw [gathered_eq rfl] at h
  exact List.eq_of_mem_replicate h

theorem Merges.gathered_eq (h : Merges s t k) : gathered s t = [k] := by
  have h := h.gathered_append [] []
  rwa [List.append_nil, List.append_nil, gathered_nil] at h

theorem endCount_append (s t : List Instruction) : endCount (s ++ t) = endCount s + endCount t := by
  rw [endCount, List.map_append, List.count_append, endCount, endCount]

structure AddsUp (s t : List Instruction) : Prop where
  length : (gathered s t).length = endCount t
  sum : (gathered s t).sum = endCount s
  apart : ∀ s' t', gathered (s ++ s') (t ++ t') = gathered s t ++ gathered s' t'

theorem AddsUp.append (h : AddsUp s t) (h' : AddsUp s' t') : AddsUp (s ++ s') (t ++ t') := by
  refine ⟨?_, ?_, fun s'' t'' ↦ ?_⟩
  · rw [h.apart, List.length_append, h.length, h'.length, endCount_append]
  · rw [h.apart, List.sum_append, h.sum, h'.sum, endCount_append]
  · rw [List.append_assoc, List.append_assoc, h.apart, h'.apart, h.apart, List.append_assoc]

theorem addsUp_of_eq (h : textMarks t = textMarks s) : AddsUp s t := by
  have hsame := gathered_eq h
  have hcount : endCount t = endCount s := by rw [← count_textMarks, h, count_textMarks]
  refine ⟨?_, ?_, fun s' t' ↦ ?_⟩
  · rw [hsame, List.length_replicate, hcount]
  · rw [hsame, List.sum_replicate_nat, Nat.mul_one]
  · rw [hsame, gathered_same h]

theorem Merges.addsUp (h : Merges s t k) : AddsUp s t := by
  refine ⟨?_, ?_, fun s' t' ↦ ?_⟩
  · rw [h.gathered_eq, ← count_textMarks, h.queue, List.count_append, List.count_replicate]
    rfl
  · rw [h.gathered_eq, ← count_textMarks, h.stream, List.count_flatten, List.map_replicate,
      List.sum_replicate_nat, List.sum_singleton]
    exact (Nat.mul_one k).symm
  · rw [h.gathered_eq, h.gathered_append]
    rfl

theorem Rewrite.addsUp (h : Rewrite l s t) : AddsUp s t := by
  cases h with
  | same | solidMask => exact addsUp_of_eq rfl
  | imageRepeat | maskRepeat | maskGroup | inlineGroup =>
    exact addsUp_of_eq (textMarks_quartets (by decide) _).symm
  | text w ws => exact (w.merges ws).addsUp
  | joinedText w₀ w ws => exact (w₀.merges_tail (w :: ws)).addsUp

theorem Draws.addsUp (h : Draws l s t) : AddsUp s t := by
  obtain ⟨cuts, hcuts, rfl, rfl⟩ := h
  induction cuts with
  | nil => exact addsUp_of_eq rfl
  | cons cut cuts ih =>
    obtain ⟨hcut, hrest⟩ := List.forall_mem_cons.1 hcuts
    exact hcut.2.addsUp.append (ih hrest)

theorem DrawsUpTo.gathered_replace {stream queue form : List Instruction} {start next : Nat}
    (h : DrawsUpTo l stream queue start) (hle : start ≤ next) (hform : AddsUp (stretch queue start next) form) :
    ∃ pre post, gathered stream queue = pre ++ List.replicate (endCount (stretch queue start next)) 1 ++ post ∧
      gathered stream (queue.take start ++ form ++ queue.drop next) =
        pre ++ gathered (stretch queue start next) form ++ post := by
  obtain ⟨done, rfl, hdone⟩ := h
  have hstream : queue.drop start = stretch queue start next ++ queue.drop next := (stretch_append_drop hle).symm
  refine ⟨gathered done (queue.take start), gathered (queue.drop next) (queue.drop next), ?_, ?_⟩
  · have hsame := hdone.addsUp.apart (stretch queue start next ++ queue.drop next)
      (stretch queue start next ++ queue.drop next)
    rw [gathered_same rfl, ← hstream, List.take_append_drop] at hsame
    rw [hsame, List.append_assoc]
  · rw [hstream, List.append_assoc, hdone.addsUp.apart, hform.apart, List.append_assoc]

end Gathered

theorem Limits.Valid.maxGlyphRuns_pos {l : Limits} (hl : l.Valid) : 0 < l.maxGlyphRuns :=
  hl.glyphRuns.1.trans_le hl.glyphRuns.2

def Overfull (l : Limits) (stream queue : List Instruction) : Prop := ∃ n ∈ gathered stream queue, l.maxGlyphRuns < n

/-- A run joins the text before it though it holds as many texts as may be merged. -/
def JoinsFull (l : Limits) (q : List Instruction) (first stop : Nat) : Prop :=
  Pattern.followsSameText q first ∧ l.maxGlyphRuns ≤ (stop - first) / 5

section Turns

open Pattern

variable {l : Limits} {p : Pattern} {q is : List Instruction} {first stop start next : Nat}
  {s s' : List Instruction × Nat} {b : Batching} {form : List Instruction}

theorem tag_mem_of_mem_stretch (h : ∀ j, first ≤ j → j < next → p.TagFits q first j) {i : Instruction}
    (hi : i ∈ stretch q first next) : i.tag ∈ p.group := by
  obtain ⟨k, hk, rfl⟩ := List.getElem_of_mem hi
  simp only [stretch, List.length_take, List.length_drop] at hk
  have hfits := h (first + k) (Nat.le_add_right _ _) (by omega)
  rw [TagFits, List.getElem?_eq_getElem (by omega)] at hfits
  simpa [stretch] using List.mem_of_getElem? hfits.symm

theorem Pattern.Gives.endCount_le (h : Gives l q first stop b start next form) (hrun : p.IsRun q first stop)
    (hp : p ≠ glyphRuns) : endCount (stretch q start next) ≤ 1 := by
  have hprogress := h.progress
  have hwithin := h.within
  have hend : Tag.endText ∉ p.group := by cases p <;> first | decide | exact absurd rfl hp
  have hnone : endCount (stretch q first next) = 0 := by
    refine List.count_eq_zero.2 fun hmem ↦ ?_
    obtain ⟨i, hi, htag⟩ := List.mem_map.1 hmem
    rw [← htag] at hend
    exact hend (tag_mem_of_mem_stretch (fun j hj hlt ↦ hrun.tags j hj (hlt.trans_le hwithin)) hi)
  obtain rfl | ⟨hfour, htags⟩ := h.joins
  · omega
  · have hbefore : endCount (stretch q start first) = 1 := by
      rw [endCount, htags]
      decide
    rw [← stretch_append_stretch (show start ≤ first by omega) hprogress.le, endCount_append, hnone, hbefore]

theorem Pattern.Gives.gathered_le (h : Gives l q first stop b start next form) (hrun : p.IsRun q first stop)
    (hp : p ≠ glyphRuns) : ∀ n ∈ gathered (stretch q start next) form, n ≤ 1 := by
  intro n hn
  have hsum := h.draws.addsUp.sum
  have hle := List.le_sum_of_mem hn
  have hone := h.endCount_le hrun hp
  omega

theorem Pattern.batchGlyphRuns_merges (h : glyphRuns.IsRun q first stop) {q' : List Instruction} {n' : Nat}
    (hl : l.Valid) (hb : batchGlyphRuns l (ofList q) first stop = .ok ⟨ofList q', n'⟩) :
    (q' = q ∧ ¬ JoinsFull l q first stop) ∨
      ∃ start next form k, start ≤ next ∧
        (start = first ∨ start + 4 = first ∧ (stretch q start first).map (·.tag) = textEnd) ∧
        q' = q.take start ++ form ++ q.drop next ∧ Merges (stretch q start next) form k ∧
        k ≤ l.maxGlyphRuns + 1 ∧ (l.maxGlyphRuns < k ↔ JoinsFull l q first stop) := by
  have hmin := hl.glyphRuns
  by_cases hn : min ((stop - first) / 5) l.maxGlyphRuns < l.minGlyphRuns
  · obtain ⟨rfl, -⟩ := eq_of_batch hb (batchGlyphRuns_short h hn)
    exact .inl ⟨rfl, fun hfull ↦ by have := hfull.2; omega⟩
  obtain ⟨n, hn'⟩ := Nat.exists_eq_add_one.2 (show 0 < min ((stop - first) / 5) l.maxGlyphRuns by omega)
  have htexts : stretch q first (first + 5 * (n + 1)) = (wrappers q first (n + 1)).flatMap Wrapper.instructions :=
    stretch_eq_wrappers h.tags (by omega)
  by_cases hf : followsSameText q first
  · obtain ⟨rfl, -⟩ := eq_of_batch hb (batchGlyphRuns_joined h hn'.symm (by omega) hf)
    obtain ⟨hfour, htags, -⟩ := followsSameText_iff.1 hf
    have hmerges := (textBefore q first).merges_tail (wrappers q first (n + 1))
    rw [Wrapper.tail_flatMap_instructions, ← stretch_eq_textBefore hfour htags, ← htexts,
      stretch_append_stretch (by omega) (by omega), length_wrappers] at hmerges
    refine .inr ⟨first - 4, _, _, _, by omega, .inr ⟨by omega, htags⟩, rfl, hmerges, by omega, ?_⟩
    exact ⟨fun hlt ↦ ⟨hf, by omega⟩, fun hfull ↦ by have := hfull.2; omega⟩
  · obtain ⟨rfl, -⟩ := eq_of_batch hb (batchGlyphRuns_alone h hn'.symm (by omega) hf)
    have hmerges := (Wrapper.ofIndex q first).merges (wrappers q (first + 5) n)
    rw [← wrappers_succ, ← htexts, length_wrappers] at hmerges
    refine .inr ⟨first, _, _, _, Nat.le_add_right _ _, .inl rfl, rfl, hmerges, by omega, ?_⟩
    exact ⟨fun hlt ↦ by omega, fun hfull ↦ absurd hfull.1 hf⟩

theorem Turn.new_texts (hl : l.Valid) (h : Turn l p first stop s s') (hd : DrawsUpTo l is s.1 s.2) :
    ∃ pre k new post, gathered is s.1 = pre ++ List.replicate k 1 ++ post ∧ gathered is s'.1 = pre ++ new ++ post ∧
      (∀ n ∈ new, n ≤ l.maxGlyphRuns + 1) ∧
      ((∃ n ∈ new, l.maxGlyphRuns < n) ↔ p = glyphRuns ∧ JoinsFull l s.1 first stop) := by
  have hpos := hl.maxGlyphRuns_pos
  have hfirst := hd.mono h.le
  have hbatch := h.batch
  by_cases hp : p = glyphRuns
  · subst hp
    obtain ⟨hsame, hnot⟩ | ⟨start, next, form, k, hle, hjoins, hq, hmerges, hk, hfull⟩ :=
      batchGlyphRuns_merges h.run hl hbatch
    · rw [hsame]
      exact ⟨gathered is s.1, 0, [], [], by simp, by simp, by simp, by simpa using hnot⟩
    · obtain ⟨pre, post, hbefore, hafter⟩ := (hfirst.of_joins hjoins).gathered_replace hle hmerges.addsUp
      rw [← hq, hmerges.gathered_eq] at hafter
      exact ⟨pre, _, [k], post, hbefore, hafter, by simpa using hk, by simpa using hfull⟩
  · obtain ⟨b, start, next, form, hb, hgives⟩ := Pattern.batch_gives hl h.run
    have hprogress := hgives.progress
    have hjoins := hgives.joins
    have hnew := hgives.gathered_le h.run hp
    obtain ⟨hq, -⟩ := eq_of_batch hbatch (hb.trans (congrArg Except.ok hgives.batching))
    obtain ⟨pre, post, hbefore, hafter⟩ :=
      (hfirst.of_joins hjoins).gathered_replace (by omega) hgives.draws.addsUp
    rw [← hq] at hafter
    refine ⟨pre, _, _, post, hbefore, hafter, fun n hn ↦ ?_, ?_, fun hfull ↦ absurd hfull.1 hp⟩
    · have := hnew n hn
      omega
    · rintro ⟨n, hn, hlt⟩
      have := hnew n hn
      omega

theorem Turn.overfull_iff (hl : l.Valid) (h : Turn l p first stop s s') (hd : DrawsUpTo l is s.1 s.2) :
    Overfull l is s'.1 ↔ Overfull l is s.1 ∨ p = glyphRuns ∧ JoinsFull l s.1 first stop := by
  obtain ⟨pre, k, new, post, hbefore, hafter, -, hnew⟩ := h.new_texts hl hd
  have hpos := hl.maxGlyphRuns_pos
  have hone : ¬ ∃ n ∈ List.replicate k 1, l.maxGlyphRuns < n := by
    rintro ⟨n, hn, hlt⟩
    have := List.eq_of_mem_replicate hn
    omega
  simp only [Overfull, hbefore, hafter, List.mem_append, or_and_right, exists_or, hnew, hone, or_false]
  exact or_right_comm

theorem Turn.gathered_le (hl : l.Valid) (h : Turn l p first stop s s') (hd : DrawsUpTo l is s.1 s.2)
    (hs : ∀ n ∈ gathered is s.1, n ≤ l.maxGlyphRuns + 1) :
    ∀ n ∈ gathered is s'.1, n ≤ l.maxGlyphRuns + 1 := by
  obtain ⟨pre, k, new, post, hbefore, hafter, hnew, -⟩ := h.new_texts hl hd
  intro n hn
  rw [hafter, List.mem_append, List.mem_append] at hn
  obtain (hn | hn) | hn := hn
  · exact hs n (by simp [hbefore, hn])
  · exact hnew n hn
  · exact hs n (by simp [hbefore, hn])

theorem Turns.gathered_le (hl : l.Valid) (h : Turns l (is, 0) s) :
    ∀ n ∈ gathered is s.1, n ≤ l.maxGlyphRuns + 1 := by
  induction h with
  | refl =>
    intro n hn
    rw [eq_one_of_mem_gathered hn]
    exact Nat.le_add_left 1 _
  | tail hturns hturn ih =>
    obtain ⟨p, first, stop, hturn⟩ := hturn
    exact hturn.gathered_le hl (Turns.drawsUpTo hl hturns (drawsUpTo_zero l is)) ih

theorem Turns.overfull (hl : l.Valid) (h : Turns l s s') (hd : DrawsUpTo l is s.1 s.2) (hs : Overfull l is s.1) :
    Overfull l is s'.1 := by
  induction h with
  | refl => exact hs
  | tail hturns hturn ih =>
    obtain ⟨p, first, stop, hturn⟩ := hturn
    exact (hturn.overfull_iff hl (Turns.drawsUpTo hl hturns hd)).2 (.inl ih)

/-- On the way to where all turns come to, a full run joins the text before it. -/
def FullJoined (l : Limits) (is : List Instruction) : Prop :=
  ∃ s s' first stop, Turns l (is, 0) s ∧ Turn l glyphRuns first stop s s' ∧ JoinsFull l s.1 first stop

theorem Turns.fullJoined (hl : l.Valid) (h : Turns l (is, 0) s) (hs : Overfull l is s.1) : FullJoined l is := by
  induction h with
  | refl =>
    obtain ⟨n, hn, hlt⟩ := hs
    rw [eq_one_of_mem_gathered hn] at hlt
    exact absurd hl.maxGlyphRuns_pos (Nat.not_lt.2 (Nat.lt_succ_iff.1 hlt))
  | tail hturns hturn ih =>
    obtain ⟨p, first, stop, hturn⟩ := hturn
    obtain hbefore | ⟨rfl, hfull⟩ :=
      (hturn.overfull_iff hl (Turns.drawsUpTo hl hturns (drawsUpTo_zero l is))).1 hs
    · exact ih hbefore
    · exact ⟨_, _, first, stop, hturns, hturn, hfull⟩

theorem ComesTo.overfull_iff (hl : l.Valid) (h : ComesTo l (is, 0) q) : Overfull l is q ↔ FullJoined l is := by
  constructor
  · obtain ⟨n, hturns, -⟩ := h
    exact hturns.fullJoined hl
  · rintro ⟨s, s', first, stop, hturns, hturn, hfull⟩
    have hd := hturns.drawsUpTo hl (drawsUpTo_zero l is)
    obtain ⟨n, hrest, -⟩ := h.after (hturns.tail ⟨_, _, _, hturn⟩)
    exact hrest.overfull hl (hturn.drawsUpTo hl hd) ((hturn.overfull_iff hl hd).2 (.inr ⟨rfl, hfull⟩))

end Turns

namespace Optimizer

open Pattern

variable {l : Limits}

def singleTexts : Limits := { minGlyphRuns := 1, maxGlyphRuns := 1 }

def shownText (k : Nat) : Wrapper := ⟨[], [.name "F"], [], [.int (Int.ofNat k)], []⟩

def twoTexts : List Instruction := [shownText 0, shownText 1].flatMap Wrapper.instructions

/-- Every text of the stream is found in one of the queue. No more of them come together than may be merged and one,
and more than may be merged only where a full run joins the text before it. -/
theorem texts_gathered (hl : l.violation? = none) (is : List Instruction) :
    (gathered is (optimized l is).toList).length = endCount (optimized l is).toList ∧
      (gathered is (optimized l is).toList).sum = endCount is ∧
      (∀ n ∈ gathered is (optimized l is).toList, n ≤ l.maxGlyphRuns + 1) ∧
      ((∀ n ∈ gathered is (optimized l is).toList, n ≤ l.maxGlyphRuns) ↔ ¬ FullJoined l is) := by
  have hvalid := Limits.violation?_eq_none_iff.1 hl
  obtain ⟨q, hq, hcomes⟩ := exists_comesTo hl is
  rw [hq, Columns.toList_ofList, ← hcomes.overfull_iff hvalid]
  obtain ⟨n, hturns, -⟩ := hcomes
  have hdraws := (hturns.drawsUpTo hvalid (drawsUpTo_zero l is)).draws
  refine ⟨hdraws.addsUp.length, hdraws.addsUp.sum, hturns.gathered_le hvalid, ?_⟩
  simp only [Overfull, not_exists, not_and, Nat.not_lt]

theorem texts_gathered_twoTexts :
    singleTexts.violation? = none ∧
      (gathered twoTexts (optimized singleTexts twoTexts).toList).length =
        endCount (optimized singleTexts twoTexts).toList ∧
      (gathered twoTexts (optimized singleTexts twoTexts).toList).sum = endCount twoTexts ∧
      (∀ n ∈ gathered twoTexts (optimized singleTexts twoTexts).toList, n ≤ singleTexts.maxGlyphRuns + 1) ∧
      ((∀ n ∈ gathered twoTexts (optimized singleTexts twoTexts).toList, n ≤ singleTexts.maxGlyphRuns) ↔
        ¬ FullJoined singleTexts twoTexts) :=
  ⟨by decide, texts_gathered (by decide) twoTexts⟩

theorem fullJoined_twoTexts : FullJoined singleTexts twoTexts := by
  have hfont : Arg.sharesWithAll (shownText 0).font (shownText 1).font := by
    change Arg.eqv (.name "F") (.name "F") && true
    rw [Arg.eqv, beq_self_eq_true]
    rfl
  have hboth : glyphRuns.IsRun twoTexts 0 twoTexts.length := by
    have halike : ∀ w ∈ [shownText 1], Arg.sharesWithAll (shownText 0).font w.font := by simpa using hfont
    have h := isRun_glyphRuns [] [] halike
    rwa [List.nil_append, List.append_nil] at h
  have hsecond : glyphRuns.IsRun twoTexts 5 twoTexts.length := by
    have hnone : ∀ w ∈ ([] : List Wrapper), Arg.sharesWithAll (shownText 1).font w.font := by simp
    have h := isRun_glyphRuns (shownText 0).instructions [] hnone
    rwa [List.append_nil] at h
  have halone := batchGlyphRuns_alone (l := singleTexts) (n := 0) hboth (by decide) (by decide) (by decide)
  rw [hboth.merged_alone] at halone
  have hfollows : followsSameText twoTexts 5 := followsSameText_iff.2 ⟨by decide, by decide, hfont⟩
  have hjoined := batchGlyphRuns_joined (l := singleTexts) (n := 0) hsecond (by decide) (by decide) hfollows
  exact ⟨_, _, 5, _, .single ⟨_, _, _, .to_end hboth halone⟩, .to_end hsecond hjoined, hfollows, by decide⟩

/-- Two texts come together in one though none may be merged. -/
theorem texts_overmerged :
    singleTexts.violation? = none ∧
      ¬ ∀ n ∈ gathered twoTexts (optimized singleTexts twoTexts).toList, n ≤ singleTexts.maxGlyphRuns := by
  have hvalid : singleTexts.violation? = none := by decide
  obtain ⟨q, hq, hcomes⟩ := exists_comesTo hvalid twoTexts
  have hover := (hcomes.overfull_iff (Limits.violation?_eq_none_iff.1 hvalid)).2 fullJoined_twoTexts
  refine ⟨hvalid, fun hle ↦ ?_⟩
  rw [hq, Columns.toList_ofList] at hle
  obtain ⟨n, hn, hlt⟩ := hover
  exact absurd (hle n hn) (Nat.not_le.2 hlt)

end Optimizer

end DisplayList
