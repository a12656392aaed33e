import DisplayList.Proofs.Scan

namespace DisplayList

open Columns (ofList)

/-- The queue draws the stream up to `n`, and from there on is the stream. -/
def DrawsUpTo (l : Limits) (stream queue : List Instruction) (n : Nat) : Prop :=
  ∃ done, stream = done ++ queue.drop n ∧ Draws l done (queue.take n)

namespace DrawsUpTo

variable {l : Limits} {stream queue form : List Instruction} {n m start next : Nat}

theorem nil (l : Limits) : DrawsUpTo l [] [] 0 := ⟨[], rfl, .nil⟩

theorem append (h : DrawsUpTo l stream queue n) (hn : n ≤ queue.length) (is : List Instruction) :
    DrawsUpTo l (stream ++ is) (queue ++ is) n := by
  obtain ⟨done, rfl, hd⟩ := h
  refine ⟨done, ?_, ?_⟩
  · rw [List.drop_append_of_le_length hn, List.append_assoc]
  · rwa [List.take_append_of_le_length hn]

theorem mono (h : DrawsUpTo l stream queue n) (hnm : n ≤ m) : DrawsUpTo l stream queue m := by
  obtain ⟨done, rfl, hd⟩ := h
  refine ⟨done ++ stretch queue n m, ?_, ?_⟩
  · rw [List.append_assoc, stretch_append_drop hnm]
  · rw [← take_append_stretch hnm]
    exact hd.append (.refl l _)

theorem back (h : DrawsUpTo l stream queue n) (hmn : m ≤ n) (ht : (stretch queue m n).map (·.tag) = textEnd) :
    DrawsUpTo l stream queue m := by
  obtain ⟨done, rfl, hd⟩ := h
  rw [← take_append_stretch hmn] at hd
  obtain ⟨done', rfl, hd'⟩ := hd.of_textEnd ht
  exact ⟨done', by rw [List.append_assoc, stretch_append_drop hmn], hd'⟩

theorem of_joins (h : DrawsUpTo l stream queue n)
    (hjoins : start = n ∨ start + 4 = n ∧ (stretch queue start n).map (·.tag) = textEnd) :
    DrawsUpTo l stream queue start := by
  obtain rfl | ⟨hfour, htags⟩ := hjoins
  · exact h
  · exact h.back (by omega) htags

theorem replace (h : DrawsUpTo l stream queue start) (hle : start ≤ next) (hs : start ≤ queue.length)
    (hd : Draws l (stretch queue start next) form) :
    DrawsUpTo l stream (queue.take start ++ form ++ queue.drop next) (start + form.length) := by
  obtain ⟨done, rfl, hdone⟩ := h
  have hlength : (queue.take start ++ form).length = start + form.length := by
    rw [List.length_append, List.length_take, Nat.min_eq_left hs]
  refine ⟨done ++ stretch queue start next, ?_, ?_⟩
  · rw [List.drop_left' hlength, List.append_assoc, stretch_append_drop hle]
  · rw [List.take_left' hlength]
    exact hdone.append hd

theorem draws (h : DrawsUpTo l stream queue n) : Draws l stream queue := by
  obtain ⟨done, rfl, hd⟩ := h
  have := hd.append (.refl l (queue.drop n))
  rwa [List.take_append_drop] at this

end DrawsUpTo

namespace Optimizer

variable {l : Limits} {stream : List Instruction} {s s' : Optimizer × List Instruction}

theorem Recalls.start_le (h : s.1.Recalls s.2) : s.1.start ≤ s.2.length := by
  have hwithin := h.within
  cases hrun : s.1.run with
  | none => rw [start_none hrun]; omega
  | some run =>
    have hwhole := (h.run run hrun).2.whole
    rw [start_run hrun]
    omega

theorem Step.draws (h : Step s s') (hs : s.1.Recalls s.2) (hd : DrawsUpTo s.1.limits stream s.2 s.1.start) :
    DrawsUpTo s.1.limits stream s'.2 s'.1.start := by
  obtain ⟨hq, hle⟩ | ⟨b, start, next, form, hgives, hq, hstart⟩ := h.start_le
  · rw [hq]
    exact hd.mono hle
  · have hprogress := hgives.progress
    have hlength := hs.start_le
    have hjoins := hgives.joins
    rw [hq, hstart]
    exact (hd.of_joins hjoins).replace (by omega) (by omega) hgives.draws

theorem draws_of_steps (h : Relation.ReflTransGen Step s s') (hs : s.1.Recalls s.2)
    (hd : DrawsUpTo s.1.limits stream s.2 s.1.start) : DrawsUpTo s.1.limits stream s'.2 s'.1.start := by
  induction h with
  | refl => exact hd
  | tail hsteps hstep ih =>
    have hlimits := limits_of_steps hsteps
    rw [← hlimits] at ih ⊢
    exact hstep.draws (recalls_of_steps hsteps hs) ih

def pushAll (s : Optimizer × Columns) (is : List Instruction) : Optimizer × Columns :=
  is.foldl (fun s i ↦ s.1.push s.2 i.tag i.args) s

def optimized (l : Limits) (is : List Instruction) : Columns :=
  let s := pushAll ({ limits := l }, .empty) is
  (s.1.flush s.2).2

theorem pushAll_draws (h : AtEnd s) (hl : s.1.limits = l) (hd : DrawsUpTo l stream s.2 s.1.start)
    (is : List Instruction) :
    ∃ s', pushAll (s.1, ofList s.2) is = (s'.1, ofList s'.2) ∧ AtEnd s' ∧ s'.1.limits = l ∧
      DrawsUpTo l (stream ++ is) s'.2 s'.1.start := by
  induction is generalizing s stream with
  | nil => exact ⟨s, rfl, h, hl, by rwa [List.append_nil]⟩
  | cons i is ih =>
    obtain ⟨s₁, hsteps, h₁, hscan⟩ := h.push i
    have hd₁ : DrawsUpTo l (stream ++ [i]) s₁.2 s₁.1.start := by
      subst hl
      exact draws_of_steps (s := (s.1, s.2 ++ [i])) hsteps (h.recalls.append [i]) (hd.append h.recalls.start_le [i])
    obtain ⟨s', hs', h', hl', hd'⟩ := ih h₁ ((limits_of_steps hsteps).trans hl) hd₁
    refine ⟨s', ?_, h', hl', by rwa [List.append_assoc, List.singleton_append] at hd'⟩
    rw [← hs', pushAll, List.foldl_cons, push, hscan]
    rfl

theorem exists_optimized (hl : l.violation? = none) (is : List Instruction) :
    ∃ q, optimized l is = ofList q ∧ Draws l is q := by
  have hempty : Columns.empty = ofList [] := rfl
  obtain ⟨s, hs, h, hlimits, hd⟩ :=
    pushAll_draws (atEnd_fresh (Limits.violation?_eq_none_iff.1 hl)) rfl (.nil l) is
  obtain ⟨s', hsteps, -, -, hsettle⟩ := h.settle
  have hq : optimized l is = ofList s'.2 := by
    rw [optimized, hempty]
    dsimp only at hs ⊢
    rw [hs, flush, hsettle]
  have hd' : DrawsUpTo l is s'.2 s'.1.start := by
    subst hlimits
    exact draws_of_steps hsteps h.recalls hd
  exact ⟨s'.2, hq, hd'.draws⟩

/-- The queue that comes out draws the stream that went in. -/
theorem optimized_draws (hl : l.violation? = none) (is : List Instruction) :
    (optimized l is).Aligned ∧ Draws l is (optimized l is).toList := by
  obtain ⟨q, hq, hdraws⟩ := exists_optimized hl is
  rw [hq, Columns.toList_ofList]
  exact ⟨Columns.aligned_ofList q, hdraws⟩

theorem limits_of_flush (hl : l.Valid) {is : List Instruction} {o : Optimizer} {c : Columns}
    (h : pushAll ({ limits := l }, .empty) is = (o, c)) : (o.flush c).1.limits = l := by
  obtain ⟨s, hs, hend, hlimits, -⟩ := pushAll_draws (atEnd_fresh hl) rfl (.nil l) is
  obtain ⟨rfl, rfl⟩ := Prod.mk.inj (h.symm.trans hs)
  obtain ⟨s', hsteps, -, -, hsettle⟩ := hend.settle
  rw [flush, hsettle]
  exact (limits_of_steps hsteps).trans hlimits

def scattered : List Instruction :=
  (List.range 3).flatMap (fun k ↦ Quartet.instructions .paintImage
    ⟨[], [.int 2, .int 0, .int 0, .int 2, .int (Int.ofNat k), .int 0],
      [.image ⟨some "image", ⟨1, 1, .rgb, .empty, false⟩⟩], []⟩) ++
    [⟨.restore, []⟩]

theorem optimized_draws_scattered :
    ({} : Limits).violation? = none ∧
      (optimized {} scattered).Aligned ∧ Draws {} scattered (optimized {} scattered).toList :=
  ⟨by decide, optimized_draws (by decide) scattered⟩

end Optimizer

end DisplayList
