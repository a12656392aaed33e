import DisplayList.Proofs.Opaque
import DisplayList.Proofs.Ownership

namespace DisplayList

/-- A buffer that one of two lists gives away, or both. -/
inductive Share where
  | kept (t : Transfer)
  | absorbed (t : Transfer)
  | packed (t : Transfer)

namespace Share

def drawn? : Share → Option Transfer
  | kept t | packed t => some t
  | absorbed _ => none

def plain? : Share → Option Transfer
  | kept t | absorbed t => some t
  | packed _ => none

def kept? : Share → Option Transfer
  | kept t => some t
  | _ => none

def absorbed? : Share → Option Transfer
  | absorbed t => some t
  | _ => none

def packed? : Share → Option Transfer
  | packed t => some t
  | _ => none

end Share

/-- Whether a stretch was rewritten, which shows in its tags. -/
def isChanged (cut : List Instruction × List Instruction) : Bool := cut.1.map (·.tag) ≠ cut.2.map (·.tag)

def absorbedIn (cut : List Instruction × List Instruction) : List Instruction :=
  if isChanged cut then cut.1.filter (·.tag ∈ paintTags) else []

def createdIn (cut : List Instruction × List Instruction) : List Instruction :=
  if isChanged cut then cut.2.filter (·.tag = .paintInlineImageGroup) else []

def sharesIn (cut : List Instruction × List Instruction) : List Share :=
  if isChanged cut then
    (transfersIn (absorbedIn cut)).map .absorbed ++ (transfersIn (createdIn cut)).map .packed
  else (transfersIn cut.1).map .kept

/-- How the buffers `ts` of a batched chunk and `ts'` of a plain one go together, if the one was cut into the other. -/
structure Balances (cuts : List (List Instruction × List Instruction)) (ts ts' : List Transfer) : Prop where
  drawn : ts = (cuts.flatMap sharesIn).filterMap Share.drawn?
  plain : ts' = (cuts.flatMap sharesIn).filterMap Share.plain?
  kept : ((cuts.flatMap sharesIn).filterMap Share.kept?).Sublist ts'
  absorbed : (cuts.flatMap sharesIn).filterMap Share.absorbed? = transfersIn (cuts.flatMap absorbedIn)
  packed : ((cuts.flatMap sharesIn).filterMap Share.packed?).map some =
    (cuts.flatMap createdIn).map Instruction.transfer?

section Cuts

variable {l : Limits} {s t : List Instruction} {cut : List Instruction × List Instruction}
  {cuts : List (List Instruction × List Instruction)}

theorem transfersIn_filter {p : Instruction → Bool} (h : ∀ i ∈ s, i.tag.handsOver → p i) :
    transfersIn (s.filter p) = transfersIn s := by
  rw [transfersIn, transfersIn, List.filterMap_filter]
  refine List.filterMap_congr fun i hi ↦ ?_
  split
  · rfl
  · rename_i hp
    rw [Instruction.transfer?, if_neg (hp ∘ h i hi)]

/-- A stretch gives away nothing but what is painted in it, and its form nothing but one buffer for each group. -/
structure Exchanges (s t : List Instruction) : Prop where
  tags : s.map (·.tag) ≠ t.map (·.tag)
  taken : ∀ i ∈ s, i.tag.handsOver → i.tag ∈ paintTags
  given : ∀ i ∈ t, i.tag.handsOver → i.tag = .paintInlineImageGroup ∧ ∃ t, i.transfer? = some t

theorem Atlas.cached_of_pack {items : List AtlasItem} {maxWidth padding : Nat} {a : Atlas}
    (h : Atlas.pack items maxWidth padding = .ok a) : a.image.cached = false := by
  obtain ⟨canvas, -, hend⟩ := bind_eq_ok h
  cases hend
  rfl

theorem exchanges_quartets {paint : Tag} {batch : Instruction} (hp : paint ∈ paintTags) (gs : List Quartet)
    (h : batch.tag.handsOver → batch.tag = .paintInlineImageGroup ∧ ∃ t, batch.transfer? = some t) :
    Exchanges (gs.flatMap (Quartet.instructions paint)) [batch] where
  tags h := by
    have hlength := congrArg List.length h
    rw [List.length_map, List.length_map, Pattern.length_instructions, List.length_singleton] at hlength
    omega
  taken i hi := by
    have hscope : Tag.save.handsOver = false ∧ Tag.transform.handsOver = false ∧ Tag.restore.handsOver = false := by
      decide
    obtain ⟨g, -, hi⟩ := List.mem_flatMap.1 hi
    simp only [Quartet.instructions, List.mem_cons, List.not_mem_nil, or_false] at hi
    obtain rfl | rfl | rfl | rfl := hi
    · simp [hscope]
    · simp [hscope]
    · exact fun _ ↦ hp
    · simp [hscope]
  given := List.forall_mem_singleton.2 h

theorem Wrapper.not_handsOver {w : Wrapper} {ws : List Wrapper} {i : Instruction} (hi : i ∈ w.merged ws) :
    i.tag.handsOver = false := by
  have hall : ∀ tag ∈ Pattern.glyphRuns.group, tag.handsOver = false := by decide
  exact hall i.tag (w.tag_mem_group hi)

theorem exchanges_texts {w : Wrapper} {ws vs : List Wrapper} (hs : ∀ i ∈ s, i ∈ vs.flatMap Wrapper.instructions)
    (ht : ∀ i ∈ t, i ∈ w.merged ws) (hlength : s.length ≠ t.length) : Exchanges s t where
  tags h := by
    apply hlength
    rw [← List.length_map, h, List.length_map]
  taken i hi h := by
    obtain ⟨v, -, hv⟩ := List.mem_flatMap.1 (hs i hi)
    rw [← v.merged_nil] at hv
    rw [Wrapper.not_handsOver hv] at h
    cases h
  given i hi h := by
    rw [Wrapper.not_handsOver (ht i hi)] at h
    cases h

theorem Rewrite.exchanges (h : Rewrite l s t) : s = t ∨ Exchanges s t := by
  have hsilent {P : Prop} {tag : Tag} (htag : tag.handsOver = false) (h : tag.handsOver) : P :=
    absurd h (by rw [htag]; exact Bool.false_ne_true)
  cases h with
  | same => exact .inl rfl
  | solidMask mask =>
    refine .inr ⟨?_, ?_, ?_⟩
    · simp [Tag.paintImageMask, Tag.paintSolidMask]
    · exact List.forall_mem_singleton.2 fun _ ↦ by simp [paintTags]
    · exact List.forall_mem_singleton.2 (hsilent rfl)
  | imageRepeat g gs => exact .inr (exchanges_quartets (by decide) (g :: gs) (hsilent rfl))
  | maskRepeat mask g gs => exact .inr (exchanges_quartets (by decide) (g :: gs) (hsilent rfl))
  | maskGroup gs => exact .inr (exchanges_quartets (by decide) gs (hsilent rfl))
  | inlineGroup gs images atlas _ _ _ _ packed =>
    refine .inr (exchanges_quartets (by decide) gs fun h ↦ ⟨rfl, ⟨none, atlas.image.data⟩, ?_⟩)
    simp [Instruction.transfer?, show Tag.paintInlineImageGroup.handsOver from h, firstImage?, Arg.image?,
      Atlas.cached_of_pack packed]
  | text w ws =>
    cases ws with
    | nil =>
      left
      rw [w.merged_nil, List.flatMap_singleton]
    | cons v ws =>
      right
      refine exchanges_texts (fun i hi ↦ hi) (fun i hi ↦ hi) ?_
      rw [Wrapper.length_texts, Wrapper.length_merged, List.length_cons]
      omega
  | joinedText w₀ w ws =>
    right
    refine exchanges_texts (fun i hi ↦ List.mem_of_mem_tail hi) (fun i hi ↦ List.mem_of_mem_tail hi) ?_
    rw [List.length_tail, List.length_tail, Wrapper.length_texts, Wrapper.length_merged, List.length_cons]
    omega

theorem map_some_transfersIn (h : ∀ i ∈ s, ∃ t, i.transfer? = some t) :
    (transfersIn s).map some = s.map Instruction.transfer? := by
  induction s with
  | nil => rfl
  | cons i s ih =>
    obtain ⟨⟨t, ht⟩, hs⟩ := List.forall_mem_cons.1 h
    rw [transfersIn_cons, ht, List.map_cons, ht, ← ih hs]
    rfl

theorem balances_nil : Balances [] [] [] := ⟨rfl, rfl, .slnil, rfl, rfl⟩

theorem Balances.append {ts ts' us us' : List Transfer} {cuts' : List (List Instruction × List Instruction)}
    (h : Balances cuts ts ts') (h' : Balances cuts' us us') : Balances (cuts ++ cuts') (ts ++ us) (ts' ++ us') where
  drawn := by rw [List.flatMap_append, List.filterMap_append, ← h.drawn, ← h'.drawn]
  plain := by rw [List.flatMap_append, List.filterMap_append, ← h.plain, ← h'.plain]
  kept := by
    rw [List.flatMap_append, List.filterMap_append]
    exact h.kept.append h'.kept
  absorbed := by
    rw [List.flatMap_append, List.filterMap_append, h.absorbed, h'.absorbed, List.flatMap_append, transfersIn_append]
  packed := by
    rw [List.flatMap_append, List.filterMap_append, List.map_append, h.packed, h'.packed, List.flatMap_append,
      List.map_append]

theorem balances_same (s : List Instruction) : Balances [(s, s)] (transfersIn s) (transfersIn s) := by
  have hsame : isChanged (s, s) = false := by simp [isChanged]
  have hshares : [(s, s)].flatMap sharesIn = (transfersIn s).map .kept := by simp [sharesIn, hsame]
  constructor <;> simp [hshares, absorbedIn, createdIn, hsame, List.filterMap_map, Function.comp_def, Share.drawn?,
    Share.plain?, Share.kept?, Share.absorbed?, Share.packed?, transfersIn]

theorem Exchanges.balances (h : Exchanges s t) : Balances [(s, t)] (transfersIn t) (transfersIn s) := by
  have hchanged : isChanged (s, t) = true := by simpa [isChanged] using h.tags
  have habsorbed : transfersIn (absorbedIn (s, t)) = transfersIn s := by
    rw [absorbedIn, if_pos hchanged]
    exact transfersIn_filter fun i hi hands ↦ decide_eq_true (h.taken i hi hands)
  have hcreated : transfersIn (createdIn (s, t)) = transfersIn t := by
    rw [createdIn, if_pos hchanged]
    exact transfersIn_filter fun i hi hands ↦ decide_eq_true (h.given i hi hands).1
  have hone : (transfersIn (createdIn (s, t))).map some = (createdIn (s, t)).map Instruction.transfer? := by
    apply map_some_transfersIn
    rw [createdIn, if_pos hchanged]
    intro i hi
    obtain ⟨hi, hgroup⟩ := List.mem_filter.1 hi
    refine (h.given i hi ?_).2
    rw [of_decide_eq_true hgroup]
    rfl
  rw [hcreated] at hone
  have hshares : [(s, t)].flatMap sharesIn = (transfersIn s).map .absorbed ++ (transfersIn t).map .packed := by
    rw [List.flatMap_singleton, sharesIn, if_pos hchanged, habsorbed, hcreated]
  constructor <;> simp [hshares, habsorbed, hone, List.filterMap_map, Function.comp_def, Share.drawn?,
    Share.plain?, Share.kept?, Share.absorbed?, Share.packed?]

theorem Rewrite.balances (h : Rewrite l s t) : Balances [(s, t)] (transfersIn t) (transfersIn s) := by
  obtain rfl | hexchanges := h.exchanges
  · exact balances_same s
  · exact hexchanges.balances

theorem balances_of_cuts (h : ∀ cut ∈ cuts, Rewrite l cut.1 cut.2) :
    Balances cuts (transfersIn (cuts.flatMap (·.2))) (transfersIn (cuts.flatMap (·.1))) := by
  induction cuts with
  | nil => exact balances_nil
  | cons cut cuts ih =>
    obtain ⟨hcut, hrest⟩ := List.forall_mem_cons.1 h
    rw [List.flatMap_cons, List.flatMap_cons, transfersIn_append, transfersIn_append]
    exact hcut.balances.append (ih hrest)

end Cuts

namespace Builder

open Columns (ofList)

section InStep

def taken (b : Builder) (tag : Tag) (args : List Arg) : Builder :=
  { b.enqueue tag args with weight := b.weight + 1 }

/-- A relation of two lists with sinks that decide alike when to deliver and what to announce, and that stay related. -/
structure InStep (R : Builder → Builder → Prop) : Prop where
  sinks {b b' : Builder} (h : R b b') : ∃ s s', b.sink = some s ∧ b'.sink = some s'
  fields {b b' : Builder} (h : R b b') :
    b.weight = b'.weight ∧ b.dependencies = b'.dependencies ∧ b.chunking = b'.chunking
  remember {b b' : Builder} (ids : List String) (h : R b b') :
    R { b with dependencies := ids } { b' with dependencies := ids }
  taken {b b' : Builder} (tag : Tag) (args : List Arg) (h : R b b') : R (b.taken tag args) (b'.taken tag args)
  deliver {b b' : Builder} {s s' : Sink} (isLast : Bool) (hs : b.sink = some s) (hs' : b'.sink = some s') (h : R b b') :
    R (b.deliver s isLast) (b'.deliver s' isLast)

variable {R : Builder → Builder → Prop} {b b' : Builder} {s : Sink} {tag : Tag} {args : List Arg}

theorem add_eq_taken (hs : b.sink = some s) : b.add tag args =
    if b.chunking.isDue (b.weight + 1) tag then (b.taken tag args).deliver s false else b.taken tag args := by
  rw [add_eq ((sink_enqueue b tag args).trans hs), chunking_enqueue, weight_enqueue]
  rfl

theorem InStep.add (hR : InStep R) (h : R b b') (tag : Tag) (args : List Arg) :
    R (b.add tag args) (b'.add tag args) := by
  obtain ⟨s, s', hs, hs'⟩ := hR.sinks h
  obtain ⟨hweight, -, hchunking⟩ := hR.fields h
  have htaken := hR.taken tag args h
  rw [add_eq_taken hs, add_eq_taken hs', hweight, hchunking]
  split
  · exact hR.deliver false ((sink_enqueue b tag args).trans hs) ((sink_enqueue b' tag args).trans hs') htaken
  · exact htaken

theorem InStep.addDependency (hR : InStep R) (h : R b b') (id : String) :
    R (b.addDependency id) (b'.addDependency id) := by
  obtain ⟨-, hdependencies, -⟩ := hR.fields h
  rw [Builder.addDependency, Builder.addDependency, hdependencies]
  split
  · exact h
  · exact hR.add (hR.remember _ h) .dependency [.name id]

theorem InStep.splice (hR : InStep R) (h : R b b') (i : Instruction) : R (b.splice i) (b'.splice i) := by
  obtain ⟨-, hdependencies, -⟩ := hR.fields h
  rw [Builder.splice, Builder.splice, hdependencies]
  cases announced? i with
  | none => exact hR.add h i.tag i.args
  | some id =>
    dsimp only
    split
    · exact h
    · exact hR.add (hR.remember _ h) i.tag i.args

theorem InStep.foldl {α : Type} {edit : Builder → α → Builder} (hedit : ∀ b b' a, R b b' → R (edit b a) (edit b' a))
    (h : R b b') (as : List α) : R (as.foldl edit b) (as.foldl edit b') := by
  induction as generalizing b b' with
  | nil => exact h
  | cons a as ih => exact ih (hedit b b' a h)

theorem InStep.effect (hR : InStep R) (h : R b b') (c : Call) : R (c.effect b) (c.effect b') := by
  cases c with
  | add tag args => exact hR.add h tag args
  | addDependency id => exact hR.addDependency h id
  | addDependencies ids => exact foldl (R := R) (fun _ _ id h ↦ hR.addDependency h id) h ids
  | append other => exact foldl (R := R) (fun _ _ i h ↦ hR.splice h i) h other.queue.toList
  | flush isLast =>
    obtain ⟨s, s', hs, hs'⟩ := hR.sinks h
    rw [Call.effect, Call.effect, Call.perform, Call.perform, Builder.flush, Builder.flush, hs, hs']
    exact hR.deliver isLast hs hs' h

theorem InStep.calls (hR : InStep R) (h : R b b') (cs : List Call) :
    R (cs.foldl Call.effect b) (cs.foldl Call.effect b') :=
  foldl (R := R) (fun _ _ c h ↦ hR.effect h c) h cs

end InStep

/-- What a list hands over, message by message, when calls are made on it. -/
def messagesBy (options : BuilderOptions) (cs : List Call) : List Message :=
  ((cs.foldl Call.effect (create options (some (.record [])))).sink.map Sink.recorded).getD []

section Echo

variable {sink : Sink} {b b' : Builder}

def Echoes (sink : Sink) (b b' : Builder) : Prop :=
  ∃ ms, b.sink = some (.record ms) ∧ b' = { b with sink := some (sink.enqueueAll ms) }

theorem taken_with_sink (b : Builder) (s : Option Sink) (tag : Tag) (args : List Arg) :
    taken { b with sink := s } tag args = { b.taken tag args with sink := s } := by
  rcases b with ⟨queue, _ | o, _⟩ <;> rfl

theorem settle_with_sink (b : Builder) (s : Option Sink) :
    settle { b with sink := s } = { b.settle with sink := s } := by
  rcases b with ⟨queue, _ | o, _⟩ <;> rfl

theorem deliver_with_sink (b : Builder) (s : Option Sink) (s₁ s₂ : Sink) (isLast : Bool) :
    deliver { b with sink := s } s₁ isLast =
      { b.deliver s₂ isLast with sink := some (s₁.enqueue (b.outgoing isLast)) } := by
  rw [deliver, settle_with_sink]
  rfl

theorem inStep_echoes (sink : Sink) : InStep (Echoes sink) where
  sinks := by
    rintro b _ ⟨ms, hs, rfl⟩
    exact ⟨_, _, hs, rfl⟩
  fields := by
    rintro b _ ⟨ms, hs, rfl⟩
    exact ⟨rfl, rfl, rfl⟩
  remember := by
    rintro b _ ids ⟨ms, hs, rfl⟩
    exact ⟨ms, hs, rfl⟩
  taken := by
    rintro b _ tag args ⟨ms, hs, rfl⟩
    exact ⟨ms, (sink_enqueue b tag args).trans hs, taken_with_sink b _ tag args⟩
  deliver := by
    rintro b _ s s' isLast hs hs' ⟨ms, hms, rfl⟩
    obtain rfl := Option.some.inj (hs.symm.trans hms)
    obtain rfl := Option.some.inj hs'
    refine ⟨ms ++ [b.outgoing isLast], rfl, ?_⟩
    rw [Sink.enqueueAll_concat]
    exact deliver_with_sink b _ _ _ isLast

theorem sink_calls (options : BuilderOptions) (sink : Sink) (cs : List Call) :
    ∃ b, cs.foldlM Call.perform (create options (some sink)) = .ok b ∧
      b.sink = some (sink.enqueueAll (messagesBy options cs)) := by
  have hcreate : Echoes sink (create options (some (.record []))) (create options (some sink)) := ⟨[], rfl, rfl⟩
  obtain ⟨ms, hs, hb⟩ := (inStep_echoes sink).calls hcreate cs
  refine ⟨_, foldlM_perform rfl cs, ?_⟩
  rw [hb, messagesBy, hs]
  rfl

end Echo

/-- How the message of a batched list goes with that of a plain one, however the chunk may have been rewritten. -/
structure HandsOver (l : Limits) (m m' : Message) : Prop where
  cuts : ∃ cuts, Cuts l m'.chunk.columns.toList m.chunk.columns.toList cuts
  balances : ∀ cuts, Cuts l m'.chunk.columns.toList m.chunk.columns.toList cuts → Balances cuts m.transfers m'.transfers

/-- A list that is drawn and one that is asked for as it is, after the same calls. -/
structure Beside (l : Limits) (drawn plain : Builder) : Prop where
  messages : ∃ ms ms', drawn.sink = some (.record ms) ∧ plain.sink = some (.record ms') ∧
    List.Forall₂ (HandsOver l) ms ms'
  pending : ∃ pending, Pends (some l) drawn.optimizer drawn.queue pending ∧
    Pends none plain.optimizer plain.queue pending
  weight : drawn.weight = plain.weight
  dependencies : drawn.dependencies = plain.dependencies
  chunking : drawn.chunking = plain.chunking

section Beside

variable {l : Limits} {drawn plain : Builder}

theorem Beside.outgoing (hl : l.violation? = none) (h : Beside l drawn plain) (isLast : Bool) :
    HandsOver l (drawn.outgoing isLast) (plain.outgoing isLast) := by
  obtain ⟨pending, hpends, hpends'⟩ := h.pending
  obtain ⟨⟨q, hq, -, hdraws⟩, -⟩ := hpends.settle
  obtain ⟨⟨q', hq', rfl⟩, -⟩ := hpends'.settle
  have htransfers (b : Builder) {is : List Instruction} (h : b.settle.queue = ofList is) :
      (b.outgoing isLast).transfers = transfersIn is := by
    rw [Builder.outgoing, h, Columns.transfers_ofList]
  have hcolumns (b : Builder) {is : List Instruction} (h : b.settle.queue = ofList is) :
      (b.outgoing isLast).chunk.columns.toList = is := by
    rw [Builder.outgoing, h, Columns.toList_ofList]
  refine ⟨?_, ?_⟩ <;> rw [hcolumns drawn hq, hcolumns plain hq']
  · exact hdraws hl
  · rw [htransfers drawn hq, htransfers plain hq']
    rintro cuts ⟨hcuts, rfl, rfl⟩
    exact balances_of_cuts fun cut hcut ↦ (hcuts cut hcut).2

theorem inStep_beside (hl : l.violation? = none) : InStep (Beside l) where
  sinks h := by
    obtain ⟨ms, ms', hs, hs', -⟩ := h.messages
    exact ⟨_, _, hs, hs'⟩
  fields h := ⟨h.weight, h.dependencies, h.chunking⟩
  remember ids h := ⟨h.messages, h.pending, h.weight, rfl, h.chunking⟩
  taken {drawn plain} tag args h := by
    obtain ⟨ms, ms', hs, hs', hms⟩ := h.messages
    obtain ⟨pending, hpends, hpends'⟩ := h.pending
    refine ⟨⟨ms, ms', ?_, ?_, hms⟩, ⟨_, hpends.enqueue tag args, hpends'.enqueue tag args⟩, ?_, ?_, ?_⟩
    · exact (sink_enqueue drawn tag args).trans hs
    · exact (sink_enqueue plain tag args).trans hs'
    · exact congrArg (· + 1) h.weight
    · exact (dependencies_enqueue drawn tag args).trans
        (h.dependencies.trans (dependencies_enqueue plain tag args).symm)
    · exact (chunking_enqueue drawn tag args).trans (h.chunking.trans (chunking_enqueue plain tag args).symm)
  deliver {drawn plain s s'} isLast hs hs' h := by
    obtain ⟨ms, ms', hms, hms', hbalanced⟩ := h.messages
    obtain rfl := Option.some.inj (hs.symm.trans hms)
    obtain rfl := Option.some.inj (hs'.symm.trans hms')
    obtain ⟨pending, hpends, hpends'⟩ := h.pending
    refine ⟨⟨_, _, rfl, rfl, ?_⟩, ⟨[], hpends.settle.2, hpends'.settle.2⟩, rfl, rfl, ?_⟩
    · exact List.rel_append hbalanced (.cons (h.outgoing hl isLast) .nil)
    · exact (chunking_settle drawn).trans (h.chunking.trans (chunking_settle plain).symm)

theorem beside_create (options : BuilderOptions) :
    Beside options.limits (create { options with intent := .display } (some (.record [])))
      (create { options with intent := .oplist } (some (.record []))) := by
  have hdrawn := holds_create { options with intent := .display } (some (.record []))
  have hplain := holds_create { options with intent := .oplist } (some (.record []))
  exact ⟨⟨[], [], rfl, rfl, .nil⟩, ⟨[], hdrawn.pends, hplain.pends⟩, rfl, rfl, rfl⟩

/-- Whatever is asked of both, and whatever their sinks, each message of a list that is drawn gives away what that of a
plain list does, but for what batching takes out and packs. -/
theorem gives_away_beside (options : BuilderOptions) (hl : options.limits.violation? = none) (cs : List Call) :
    (∀ intent sink, ∃ b, cs.foldlM Call.perform (create { options with intent } (some sink)) = .ok b ∧
      b.sink = some (sink.enqueueAll (messagesBy { options with intent } cs))) ∧
    List.Forall₂ (HandsOver options.limits) (messagesBy { options with intent := .display } cs)
      (messagesBy { options with intent := .oplist } cs) := by
  refine ⟨fun intent sink ↦ sink_calls { options with intent } sink cs, ?_⟩
  obtain ⟨ms, ms', hs, hs', hms⟩ := ((inStep_beside hl).calls (beside_create options) cs).messages
  rw [messagesBy, messagesBy, hs, hs']
  exact hms

def dotAt (id : String) (k : Nat) (kind : PixelKind) : Quartet :=
  ⟨[], [.int 1, .int 0, .int 0, .int 1, .int (Int.ofNat k), .int 0],
    [.image ⟨some id, ⟨1, 1, kind, filled 0 (kind.rowBytes 1), false⟩⟩], []⟩

def dots : List Call :=
  let painted := [dotAt "first" 0 .rgba, dotAt "second" 1 .rgba].flatMap (Quartet.instructions .paintInlineImage) ++
    (dotAt "mask" 2 .gray1).instructions .paintImageMask ++ (dotAt "third" 3 .rgba).instructions .paintInlineImage
  painted.map (fun i ↦ .add i.tag i.args) ++ [.flush true]

def dotOptions : BuilderOptions := { limits := { minInlineImages := 2 } }

theorem gives_away_beside_dots :
    dotOptions.limits.violation? = none ∧
      (∀ intent sink, ∃ b, dots.foldlM Call.perform (create { dotOptions with intent } (some sink)) = .ok b ∧
        b.sink = some (sink.enqueueAll (messagesBy { dotOptions with intent } dots))) ∧
      List.Forall₂ (HandsOver dotOptions.limits) (messagesBy { dotOptions with intent := .display } dots)
        (messagesBy { dotOptions with intent := .oplist } dots) :=
  ⟨by decide, gives_away_beside dotOptions (by decide) dots⟩

end Beside

end Builder

end DisplayList
