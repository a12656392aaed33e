import DisplayList.Proofs.Scan
import Mathlib.Data.List.Infix
import Mathlib.Order.Bounds.Defs

namespace DisplayList

namespace Pattern

variable {p p' : Pattern} {ts : List Tag} {tag : Tag} {k k' : Nat}

theorem mem_all (p : Pattern) : p ∈ all := by cases p <;> decide

theorem eq_zero_of_begins (hk : k < p.period) (h : p.group[k]? = p'.group[0]?) : k = 0 := by
  have hall : ∀ p ∈ all, ∀ p' ∈ all, ∀ k < p.period, p.group[k]? = p'.group[0]? → k = 0 := by decide
  exact hall p (mem_all p) p' (mem_all p') k hk h

theorem period_eq_of_begins (h : p.group[0]? = p'.group[0]?) : p.period = p'.period := by
  have hall : ∀ p ∈ all, ∀ p' ∈ all, p.group[0]? = p'.group[0]? → p.period = p'.period := by decide
  exact hall p (mem_all p) p' (mem_all p') h

theorem eq_of_group_eq (h : p.group = p'.group) : p = p' := by
  have hall : ∀ p ∈ all, ∀ p' ∈ all, p.group = p'.group → p = p' := by decide
  exact hall p (mem_all p) p' (mem_all p') h

/-- The tags read end in the first `k` of a group. -/
def Begun (p : Pattern) (k : Nat) (ts : List Tag) : Prop := p.group.take k <:+ ts

theorem begun_zero (p : Pattern) (ts : List Tag) : p.Begun 0 ts := List.nil_suffix

theorem begun_period_iff : p.Begun p.period ts ↔ p.group <:+ ts := by
  rw [Begun, period, List.take_length]

theorem begun_succ_iff (hk : k < p.period) :
    p.Begun (k + 1) (ts ++ [tag]) ↔ p.Begun k ts ∧ p.group[k]? = some tag := by
  have hk : k < p.group.length := hk
  rw [Begun, Begun, List.take_add_one, List.getElem?_eq_getElem hk, Option.toList_some, ← List.reverse_prefix,
    List.reverse_append, List.reverse_append, List.reverse_singleton, List.reverse_singleton,
    List.singleton_append, List.singleton_append, List.cons_prefix_cons, List.reverse_prefix, and_comm,
    Option.some.injEq]

theorem Begun.le (h : p.Begun k ts) (h' : p'.Begun k' ts) (hk : 0 < k) (hkp : k ≤ p.period)
    (hkp' : k' ≤ p'.period) : k' ≤ k := by
  by_contra hlt
  have hlength : (p.group.take k).length ≤ (p'.group.take k').length := by
    rw [List.length_take_of_le hkp, List.length_take_of_le hkp']
    omega
  obtain ⟨front, hfront⟩ := List.suffix_of_suffix_length_le h h' hlength
  have hshort : front.length = k' - k := by
    have := congrArg List.length hfront
    rw [List.length_append, List.length_take_of_le hkp, List.length_take_of_le hkp'] at this
    omega
  have htag : p'.group[k' - k]? = p.group[0]? := by
    have := congrArg (·[front.length]?) hfront
    rw [List.getElem?_append_right le_rfl, Nat.sub_self, List.getElem?_take_of_lt hk,
      List.getElem?_take_of_lt (by omega), hshort] at this
    exact this.symm
  have := eq_zero_of_begins (by omega) htag
  omega

theorem Begun.eq (h : p.Begun k ts) (h' : p'.Begun k' ts) (hk : 0 < k) (hk' : 0 < k') (hkp : k ≤ p.period)
    (hkp' : k' ≤ p'.period) : k = k' :=
  Nat.le_antisymm (h'.le h hk' hkp' hkp) (h.le h' hk hkp hkp')

theorem Begun.take_eq (h : p.Begun k ts) (h' : p'.Begun k ts) (hkp : k ≤ p.period) (hkp' : k ≤ p'.period) :
    p.group.take k = p'.group.take k :=
  (List.suffix_of_suffix_length_le h h' (by rw [List.length_take_of_le hkp, List.length_take_of_le hkp'])).eq_of_length
    (by rw [List.length_take_of_le hkp, List.length_take_of_le hkp'])

theorem Begun.period_eq (h : p.Begun k ts) (h' : p'.Begun k ts) (hk : 0 < k) (hkp : k ≤ p.period)
    (hkp' : k ≤ p'.period) : p.period = p'.period := by
  have := congrArg (·[0]?) (h.take_eq h' hkp hkp')
  rw [List.getElem?_take_of_lt hk, List.getElem?_take_of_lt hk] at this
  exact period_eq_of_begins this

theorem eq_of_ends (h : p.group <:+ ts) (h' : p'.group <:+ ts) : p = p' := by
  have hlength : p.period = p'.period :=
    (begun_period_iff.2 h).eq (begun_period_iff.2 h') p.period_pos p'.period_pos le_rfl le_rfl
  exact eq_of_group_eq ((List.suffix_of_suffix_length_le h h' hlength.le).eq_of_length hlength)

end Pattern

namespace LeadIn

variable {l l' : LeadIn} {p : Pattern} {ts : List Tag} {tag : Tag}

/-- The patterns that are live are those of which the tags read end in the first `depth` of a group. -/
def Lives (l : LeadIn) (ts : List Tag) : Prop := ∀ p, p ∈ l.live ↔ l.depth < p.period ∧ p.Begun l.depth ts

structure Knows (l : LeadIn) (ts : List Tag) : Prop where
  lives : l.Lives ts
  live_ne_nil : l.live ≠ []
  longest : ∀ (p : Pattern) (k : Nat), k < p.period → p.Begun k ts → k ≤ l.depth

theorem lives_root (ts : List Tag) : root.Lives ts := fun p ↦
  iff_of_true p.mem_all ⟨p.period_pos, p.begun_zero ts⟩

theorem knows_root_nil : root.Knows [] where
  lives := lives_root []
  live_ne_nil := by decide
  longest p k hk hb := by
    have hlength := hb.length_le
    rw [List.length_take_of_le (show k ≤ p.group.length from hk.le)] at hlength
    exact hlength

theorem Lives.mem_next_iff (h : l.Lives ts) :
    p ∈ l.live.filter (fun p ↦ p.group[l.depth]? = some tag) ↔
      l.depth < p.period ∧ p.Begun (l.depth + 1) (ts ++ [tag]) := by
  rw [List.mem_filter, h p, decide_eq_true_eq, and_assoc]
  refine and_congr_right fun hk ↦ ?_
  rw [Pattern.begun_succ_iff hk]

theorem Lives.ends (h : l.Lives ts) (hs : l.step tag = .complete p) : p.group <:+ ts ++ [tag] := by
  obtain ⟨hlive, hg, hperiod⟩ := step_complete hs
  have hmem : p ∈ l.live.filter (fun p ↦ p.group[l.depth]? = some tag) := List.mem_filter.2 ⟨hlive, decide_eq_true hg⟩
  obtain ⟨hk, hb⟩ := h.mem_next_iff.1 hmem
  rwa [← hperiod, Pattern.begun_period_iff] at hb

theorem Lives.not_begun (h : l.Lives ts) (hs : l.step tag = .miss) (hk : l.depth < p.period) :
    ¬ p.Begun (l.depth + 1) (ts ++ [tag]) := by
  intro hb
  have hmem : p ∈ l.live.filter (fun p ↦ p.group[l.depth]? = some tag) := h.mem_next_iff.2 ⟨hk, hb⟩
  have hnext : l.live.filter (fun p ↦ p.group[l.depth]? = some tag) = [] := by grind [step]
  rw [hnext] at hmem
  cases hmem

theorem Lives.advanced (h : l.Lives ts) (hs : l.step tag = .advanced l') :
    l'.Knows (ts ++ [tag]) ∧ ∀ p : Pattern, ¬ p.group <:+ ts ++ [tag] := by
  have hnext : l.live.filter (fun p ↦ p.group[l.depth]? = some tag) ≠ [] ∧
      ∀ p ∈ l.live.filter (fun p ↦ p.group[l.depth]? = some tag), p.period ≠ l.depth + 1 := by
    grind [step]
  obtain ⟨p₀, hp₀⟩ := List.exists_mem_of_ne_nil _ hnext.1
  obtain ⟨hk₀, hb₀⟩ := h.mem_next_iff.1 hp₀
  have hlength (p : Pattern) (k : Nat) (hk : 0 < k) (hkp : k ≤ p.period) (hb : p.Begun k (ts ++ [tag])) :
      k = l.depth + 1 := hb.eq hb₀ hk (Nat.succ_pos _) hkp hk₀
  rw [step_advanced hs]
  refine ⟨⟨fun p ↦ ?_, hnext.1, fun p k hk hb ↦ ?_⟩, fun p hends ↦ ?_⟩
  · rw [h.mem_next_iff]
    constructor
    · rintro ⟨hk, hb⟩
      have hperiod := hnext.2 p (h.mem_next_iff.2 ⟨hk, hb⟩)
      exact ⟨by dsimp only; omega, hb⟩
    · rintro ⟨hk, hb⟩
      exact ⟨Nat.lt_of_succ_lt hk, hb⟩
  · obtain rfl | hpos := Nat.eq_zero_or_pos k
    · exact Nat.zero_le _
    · exact (hlength p k hpos hk.le hb).le
  · have hb := Pattern.begun_period_iff.2 hends
    have hperiod := hlength p p.period p.period_pos le_rfl hb
    refine hnext.2 p (h.mem_next_iff.2 ⟨by omega, ?_⟩) hperiod
    rwa [← hperiod]

theorem knows_root_of_ends (h : p.group <:+ ts) : root.Knows ts where
  lives := lives_root ts
  live_ne_nil := by decide
  longest p' k hk hb := by
    by_contra hpos
    have hb₀ := Pattern.begun_period_iff.2 h
    obtain rfl := hb.eq hb₀ (Nat.pos_of_ne_zero fun h₀ ↦ hpos h₀.le) p.period_pos hk.le le_rfl
    have := hb.period_eq hb₀ p.period_pos hk.le le_rfl
    omega

variable (h : l.Knows ts)

include h

theorem Knows.complete (hr : l.read tag = .complete p) :
    root.Knows (ts ++ [tag]) ∧ ∀ p' : Pattern, p'.group <:+ ts ++ [tag] ↔ p' = p := by
  have hends : p.group <:+ ts ++ [tag] := by
    obtain ⟨-, he⟩ | ⟨-, he⟩ := l.read_eq tag
    · exact h.lives.ends (he ▸ hr)
    · exact (lives_root ts).ends (he ▸ hr)
  refine ⟨knows_root_of_ends hends, fun p' ↦ ⟨fun h' ↦ Pattern.eq_of_ends h' hends, ?_⟩⟩
  rintro rfl
  exact hends

theorem Knows.advanced (hr : l.read tag = .advanced l') :
    l'.Knows (ts ++ [tag]) ∧ ∀ p : Pattern, ¬ p.group <:+ ts ++ [tag] := by
  obtain ⟨-, he⟩ | ⟨-, he⟩ := l.read_eq tag
  · exact h.lives.advanced (he ▸ hr)
  · exact (lives_root ts).advanced (he ▸ hr)

theorem Knows.miss (hr : l.read tag = .miss) :
    root.Knows (ts ++ [tag]) ∧ ∀ p : Pattern, ¬ p.group <:+ ts ++ [tag] := by
  obtain ⟨hne, he⟩ | ⟨hs, he⟩ := l.read_eq tag
  · exact absurd (he ▸ hr) hne
  have hroot : root.step tag = .miss := he ▸ hr
  have hnone (p : Pattern) (k : Nat) (hk : k ≤ p.period) (hb : p.Begun k (ts ++ [tag])) : k = 0 := by
    cases k with
    | zero => rfl
    | succ k =>
      obtain ⟨hbegun, hg⟩ := (Pattern.begun_succ_iff hk).1 hb
      obtain rfl | hpos := Nat.eq_zero_or_pos k
      · exact absurd hb ((lives_root ts).not_begun hroot p.period_pos)
      · obtain ⟨p₀, hp₀⟩ := List.exists_mem_of_ne_nil _ h.live_ne_nil
        obtain ⟨hk₀, hb₀⟩ := (h.lives p₀).1 hp₀
        have hle := h.longest p k hk hbegun
        obtain rfl := hbegun.eq hb₀ hpos (by omega) (by omega) hk₀.le
        exact absurd hb (h.lives.not_begun hs hk)
  refine ⟨⟨lives_root _, by decide, fun p k hk hb ↦ (hnone p k hk.le hb).le⟩, fun p hends ↦ ?_⟩
  have := hnone p p.period le_rfl (Pattern.begun_period_iff.2 hends)
  have := p.period_pos
  omega

section Readings

omit h

def Progress.next : Progress → LeadIn
  | .miss => root
  | .advanced l => l
  | .complete _ => root

def readAll (ts : List Tag) : LeadIn := ts.foldl (fun l tag ↦ (l.read tag).next) root

theorem readAll_concat (ts : List Tag) (tag : Tag) : readAll (ts ++ [tag]) = ((readAll ts).read tag).next :=
  List.foldl_concat ..

theorem depth_of_read_pos (hr : l.read tag = .advanced l') : 0 < l'.depth := by
  obtain ⟨-, he⟩ | ⟨-, he⟩ := l.read_eq tag
  · rw [depth_of_step (he ▸ hr)]
    exact Nat.succ_pos _
  · rw [depth_of_step (he ▸ hr)]
    exact Nat.succ_pos _

theorem Knows.next (h : l.Knows ts) (tag : Tag) :
    (l.read tag).next.Knows (ts ++ [tag]) ∧ ∀ p : Pattern, l.read tag = .complete p ↔ p.group <:+ ts ++ [tag] := by
  cases hr : l.read tag with
  | miss =>
    obtain ⟨hroot, hnone⟩ := h.miss hr
    exact ⟨hroot, fun p ↦ iff_of_false nofun (hnone p)⟩
  | advanced l' =>
    obtain ⟨hl', hnone⟩ := h.advanced hr
    exact ⟨hl', fun p ↦ iff_of_false nofun (hnone p)⟩
  | complete p' =>
    obtain ⟨hroot, hends⟩ := h.complete hr
    refine ⟨hroot, fun p ↦ ?_⟩
    rw [hends p, Progress.complete.injEq, eq_comm]

theorem knows_readAll (ts : List Tag) : (readAll ts).Knows ts := by
  induction ts using List.reverseRecOn with
  | nil => exact knows_root_nil
  | append_singleton ts tag ih =>
    rw [readAll_concat]
    exact (ih.next tag).1

theorem readAll_eq_root (hzero : (readAll ts).depth = 0) : readAll ts = root := by
  induction ts using List.reverseRecOn with
  | nil => rfl
  | append_singleton ts tag ih =>
    rw [readAll_concat] at hzero ⊢
    cases hr : (readAll ts).read tag with
    | miss | complete => rfl
    | advanced l' =>
      rw [hr] at hzero
      exact absurd hzero (depth_of_read_pos hr).ne'

theorem Knows.mem_live_iff (h : l.Knows ts) (p : Pattern) : p ∈ l.live ↔ p.group.take l.depth <:+ ts := by
  rw [h.lives p]
  refine and_iff_right_of_imp fun hb ↦ ?_
  by_contra! hle
  obtain ⟨p₀, hp₀⟩ := List.exists_mem_of_ne_nil _ h.live_ne_nil
  obtain ⟨hk₀, hb₀⟩ := (h.lives p₀).1 hp₀
  have hpos : 0 < l.depth := p.period_pos.trans_le hle
  have hends : p.Begun p.period ts := by
    rwa [Pattern.begun_period_iff, ← List.take_of_length_le hle]
  have heq : p.period = l.depth := hends.eq hb₀ p.period_pos hpos le_rfl hk₀.le
  have hperiod := hb.period_eq hb₀ hpos heq.ge hk₀.le
  omega

theorem Knows.isGreatest (h : l.Knows ts) :
    IsGreatest {k | ∃ p : Pattern, k < p.period ∧ p.group.take k <:+ ts} l.depth := by
  constructor
  · obtain ⟨p₀, hp₀⟩ := List.exists_mem_of_ne_nil _ h.live_ne_nil
    exact ⟨p₀, (h.lives p₀).1 hp₀⟩
  · rintro k ⟨p, hk, hb⟩
    exact h.longest p k hk hb

/-- What a lead-in tells of the tags that it has read. -/
structure Tells (l : LeadIn) (ts : List Tag) : Prop where
  /-- The tags end in `depth` of a group that is not whole, and in no more of any. -/
  depth : IsGreatest {k | ∃ p : Pattern, k < p.period ∧ p.group.take k <:+ ts} l.depth
  live : ∀ p, p ∈ l.live ↔ p.group.take l.depth <:+ ts
  root : l.depth = 0 → l = .root

/-- A lead-in misses no group, though it remembers one beginning only. After any tags it tells how far they go into a
group and into which, and the next tag is reported to complete a group just where the tags end in it. -/
theorem readAll_tells (ts : List Tag) :
    (readAll ts).Tells ts ∧ ∀ (tag : Tag) (p : Pattern),
      ((readAll ts).read tag = .complete p ↔ p.group <:+ ts ++ [tag]) ∧
        ((readAll ts).read tag = .complete p → readAll (ts ++ [tag]) = root) := by
  have h := knows_readAll ts
  refine ⟨⟨h.isGreatest, h.mem_live_iff, readAll_eq_root⟩, fun tag p ↦ ⟨(h.next tag).2 p, fun hr ↦ ?_⟩⟩
  rw [readAll_concat, hr]
  rfl

example : readAll [.save, .save, .transform] = ⟨[.inlineImages, .imageMasks, .images], 2⟩ := by decide

end Readings

end LeadIn

/-- The optimizer reads the tags of the queue, from wherever no run is open, as a lead-in does. -/
theorem Optimizer.Step.leadIn_eq {s s' : Optimizer × List Instruction} {tag : Tag} (h : Step s s')
    (hrun : s.1.run = none) (htag : s.2[s.1.resume]?.map (·.tag) = some tag) :
    s'.1.leadIn = (s.1.leadIn.read tag).next := by
  cases h with
  | follow hopen | close hopen => cases hrun.symm.trans hopen
  | skip _ ht hread | lead _ ht hread | enter _ ht hread | refuse _ ht hread =>
    obtain rfl := Option.some.inj (htag.symm.trans ht)
    rw [hread]
    rfl

end DisplayList
