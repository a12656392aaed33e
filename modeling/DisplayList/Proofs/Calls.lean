import DisplayList.Proofs.Scan

namespace DisplayList

open Columns (ofList)

namespace Optimizer

inductive Call where
  | push (tag : Tag) (args : List Arg)
  | flush
  | clear

namespace Call

/-- What a call comes to, or the first fault that it meets. -/
def attempt (s : Optimizer × Columns) : Call → Except Fault (Optimizer × Columns)
  | push tag args => s.1.scanLast (s.2.push tag args)
  | flush => s.1.settle s.2
  | clear => .ok (s.1.reset, .empty)

def perform (s : Optimizer × Columns) : Call → Optimizer × Columns
  | push tag args => s.1.push s.2 tag args
  | flush => s.1.flush s.2
  | clear => (s.1.reset, .empty)

end Call

variable {s s' : Optimizer × List Instruction} {c : Call}

theorem AtEnd.attempt (h : AtEnd s) (c : Call) :
    ∃ s', AtEnd s' ∧ c.attempt (s.1, ofList s.2) = .ok (s'.1, ofList s'.2) := by
  cases c with
  | push tag args =>
    obtain ⟨s', -, hend, hs'⟩ := h.push ⟨tag, args⟩
    exact ⟨s', hend, hs'⟩
  | flush =>
    obtain ⟨s', -, hend, -, hs'⟩ := h.settle
    exact ⟨s', hend, hs'⟩
  | clear => exact ⟨(s.1.reset, []), atEnd_fresh h.recalls.valid, rfl⟩

theorem perform_of_attempt {s r : Optimizer × Columns} (h : c.attempt s = .ok r) : c.perform s = r := by
  cases c with
  | push tag args =>
    have h : s.1.scanLast (s.2.push tag args) = .ok r := h
    rw [Call.perform, push, h]
  | flush =>
    have h : s.1.settle s.2 = .ok r := h
    rw [Call.perform, flush, h]
  | clear => exact Except.ok.inj h

theorem AtEnd.calls (h : AtEnd s) (calls : List Call) :
    ∃ s', AtEnd s' ∧ calls.foldlM Call.attempt (s.1, ofList s.2) = .ok (s'.1, ofList s'.2) ∧
      calls.foldl Call.perform (s.1, ofList s.2) = (s'.1, ofList s'.2) := by
  induction calls generalizing s with
  | nil => exact ⟨s, h, rfl, rfl⟩
  | cons c calls ih =>
    obtain ⟨s₁, h₁, hattempt⟩ := h.attempt c
    obtain ⟨s', h', hs', hp'⟩ := ih h₁
    refine ⟨s', h', ?_, ?_⟩
    · rw [List.foldlM_cons, hattempt, ok_bind, hs']
    · rw [List.foldl_cons, perform_of_attempt hattempt, hp']

/-- No sequence of calls meets a fault, and after each there is nothing left to look at. -/
theorem calls_meet_no_fault {l : Limits} (hl : l.violation? = none) (calls : List Call) :
    ∃ r, calls.foldlM Call.attempt ({ limits := l }, .empty) = .ok r ∧
      calls.foldl Call.perform ({ limits := l }, .empty) = r ∧ r.2.Aligned ∧ r.1.resume = r.2.size := by
  obtain ⟨s, h, hattempt, hperform⟩ := (atEnd_fresh (Limits.violation?_eq_none_iff.1 hl)).calls calls
  exact ⟨_, hattempt, hperform, Columns.aligned_ofList _, h.resume.trans (Columns.size_ofList _).symm⟩

def malformed : List Call :=
  [.push .save [], .push .transform [], .push .paintImageMask [], .push .restore [], .flush,
    .push .beginText [.null], .push .setFont [], .push .setTextMatrix [], .push .showText [], .push .endText [],
    .clear, .flush, .push .endText []]

theorem malformed_meets_no_fault :
    ({ minImageMasks := 1, minGlyphRuns := 1 } : Limits).violation? = none ∧
      ∃ r, malformed.foldlM Call.attempt ({ limits := { minImageMasks := 1, minGlyphRuns := 1 } }, .empty) = .ok r ∧
        malformed.foldl Call.perform ({ limits := { minImageMasks := 1, minGlyphRuns := 1 } }, .empty) = r ∧
        r.2.Aligned ∧ r.1.resume = r.2.size :=
  ⟨by decide, calls_meet_no_fault (by decide) malformed⟩

end Optimizer

end DisplayList
