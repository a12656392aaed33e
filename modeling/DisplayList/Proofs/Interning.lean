import DisplayList.Proofs.Pixels
import DisplayList.Trace.Basic
import Mathlib.Data.List.Forall2

namespace DisplayList

/-- What is read of the instructions of a trace, one after the other. -/
inductive Mention where
  | tag (t : TagRef)
  | image (i : TraceImage)

namespace TraceArg

mutual

def images : TraceArg → List TraceImage
  | image i => [i]
  | array items => imagesOf items
  | _ => []

def imagesOf : List TraceArg → List TraceImage
  | [] => []
  | a :: rest => a.images ++ imagesOf rest

end

mutual

def under (resources : String → Resource) : TraceArg → Arg
  | null => .null
  | bool b => .bool b
  | int n => .int n
  | number x => .number x
  | name s => .name s
  | image i => .image (resources i.id)
  | array items => .array (underAll resources items)

def underAll (resources : String → Resource) : List TraceArg → List Arg
  | [] => []
  | a :: rest => a.under resources :: underAll resources rest

end

end TraceArg

def Mention.image? : Mention → Option TraceImage
  | tag _ => none
  | image i => some i

def imagesIn (ms : List Mention) : List TraceImage := ms.filterMap Mention.image?

def TraceEntry.mentions : TraceEntry → List Mention
  | dependency _ => []
  | instruction tag args => .tag tag :: (TraceArg.imagesOf args).map .image

def Trace.mentions (t : Trace) : List Mention := t.entries.flatMap TraceEntry.mentions

namespace TraceImage

def IsNew (i : TraceImage) (before : List Mention) : Prop := ∀ j ∈ imagesIn before, j.id ≠ i.id

def size (i : TraceImage) : Nat := i.kind.rowBytes i.width * i.height

def shown (i : TraceImage) : Image := ⟨i.width, i.height, i.kind, ⟨.replicate i.size i.fill⟩, i.cached⟩

end TraceImage

/-- How reading may fail at a mention that comes after others. -/
inductive Mention.Fails (before : List Mention) : Mention → TraceFailure → Prop
  | unknownName {name : String} (unknown : Tag.ofName? name = none) :
    Fails before (.tag (.name name)) (.invalid (.unknownName name))
  | emptyImage {i : TraceImage} (new : i.IsNew before) (empty : i.width = 0 ∨ i.height = 0) :
    Fails before (.image i) (.invalid (.emptyImage i.id))
  | tooLarge {i : TraceImage} (new : i.IsNew before) (full : ¬ (i.width = 0 ∨ i.height = 0))
    (large : UInt64.size / 2 ≤ i.size) : Fails before (.image i) (.fault .overflow)

def Faultless (ms : List Mention) : Prop :=
  ∀ before m after e, ms = before ++ m :: after → ¬ m.Fails before e

def FirstFault (ms : List Mention) (e : TraceFailure) : Prop :=
  ∃ before m after, ms = before ++ m :: after ∧ m.Fails before e ∧ Faultless before

def TagRef.Means : TagRef → Tag → Prop
  | code c, tag => tag = ⟨c⟩
  | name s, tag => Tag.ofName? s = some tag

def TraceEntry.Becomes (resources : String → Resource) : TraceEntry → Addition → Prop
  | dependency id, .dependency id' => id' = id
  | instruction tag args, .instruction i => tag.Means i.tag ∧ i.args = TraceArg.underAll resources args
  | _, _ => False

def Mention.read (images : ImageTable) : Mention → Except TraceFailure ImageTable
  | tag t => t.resolve.map fun _ ↦ images
  | image i => (i.intern images).map (·.2)

def readAll (images : ImageTable) (ms : List Mention) : Except TraceFailure ImageTable :=
  ms.foldlM Mention.read images

namespace ImageTable

def resource (images : ImageTable) (id : String) : Resource :=
  (images.lookup id).getD ⟨none, 0, 0, .rgba, .empty, false⟩

def Extends (images images' : ImageTable) : Prop := ∀ id r, images.lookup id = some r → images'.lookup id = some r

structure Registers (images : ImageTable) (ms : List Mention) : Prop where
  known : ∀ id, (images.lookup id).isSome ↔ ∃ i ∈ imagesIn ms, i.id = id
  image : ∀ before i after, ms = before ++ .image i :: after → i.IsNew before →
    ∃ r, images.lookup i.id = some r ∧ r.image = i.shown
  number : ∀ id r, images.lookup id = some r → ∃ n < images.decoded, r.id = some (toString n)
  apart : ∀ id id' r r', images.lookup id = some r → images.lookup id' = some r' → r.id = r'.id → id = id'

end ImageTable

section Table

variable {images images' images'' : ImageTable} {ms ms' : List Mention} {i : TraceImage} {id : String} {r : Resource}

theorem toString_injective : Function.Injective (toString : Nat → String) := by
  intro m n h
  have hdigits : Nat.toDigits 10 m = Nat.toDigits 10 n := by
    rw [← Nat.toList_repr, ← Nat.toList_repr, ← Nat.toString_eq_repr, ← Nat.toString_eq_repr, h]
  rw [← Nat.ofDigitChars_ten_toDigits (n := m), hdigits, Nat.ofDigitChars_ten_toDigits]

theorem ImageTable.lookup_add (images : ImageTable) (id : String) (r : Resource) (id' : String) :
    (images.add id r).lookup id' = if id' = id then some r else images.lookup id' := by
  rw [lookup, add, List.lookup_cons]
  split
  · rename_i h
    rw [if_pos (eq_of_beq h)]
  · rename_i h
    rw [if_neg (ne_of_beq_false h), lookup]

theorem ImageTable.Extends.refl (images : ImageTable) : images.Extends images := fun _ _ h ↦ h

theorem ImageTable.Extends.trans (h : images.Extends images') (h' : images'.Extends images'') :
    images.Extends images'' := fun id r hr ↦ h' id r (h id r hr)

theorem TraceImage.samples_eq (i : TraceImage) :
    i.samples = if i.size < UInt64.size / 2 then .ok i.shown.data else .error .overflow := by
  rw [samples, productIn]
  split
  · rw [ok_bind, allocate, shown, ← Canvas.data_filled]
    rfl
  · rename_i hword
    rw [if_neg fun hsize : i.size < UInt64.size / 2 ↦ hword (hsize.trans (by decide))]
    rfl

theorem TraceImage.decode_eq (i : TraceImage) (n : Nat) :
    i.decode n =
      if i.width = 0 ∨ i.height = 0 then .error (.invalid (.emptyImage i.id))
      else if i.size < UInt64.size / 2 then .ok ⟨some (toString n), i.shown⟩
      else .error (.fault .overflow) := by
  rw [decode, samples_eq]
  split
  · rfl
  · split <;> rfl

theorem TraceImage.intern_cases (i : TraceImage) (images : ImageTable) :
    (∃ r, images.lookup i.id = some r ∧ i.intern images = .ok (r, images)) ∨
      images.lookup i.id = none ∧
        ((∃ e, i.intern images = .error e ∧ ∀ before, i.IsNew before → (Mention.image i).Fails before e) ∨
          (¬ (i.width = 0 ∨ i.height = 0) ∧ i.size < UInt64.size / 2) ∧
            i.intern images = .ok (⟨some (toString images.decoded), i.shown⟩,
              images.add i.id ⟨some (toString images.decoded), i.shown⟩)) := by
  rw [intern]
  cases h : images.lookup i.id with
  | some r => exact .inl ⟨r, rfl, rfl⟩
  | none =>
    refine .inr ⟨rfl, ?_⟩
    dsimp only
    rw [decode_eq]
    by_cases hempty : i.width = 0 ∨ i.height = 0
    · rw [if_pos hempty]
      exact .inl ⟨_, rfl, fun before hnew ↦ .emptyImage hnew hempty⟩
    · by_cases hfits : i.size < UInt64.size / 2
      · rw [if_neg hempty, if_pos hfits]
        exact .inr ⟨⟨hempty, hfits⟩, rfl⟩
      · rw [if_neg hempty, if_neg hfits]
        exact .inl ⟨_, rfl, fun before hnew ↦ .tooLarge hnew hempty (Nat.not_lt.1 hfits)⟩

theorem ImageTable.extends_add (h : images.lookup id = none) (r : Resource) : images.Extends (images.add id r) := by
  intro id' r' hr
  rw [lookup_add, if_neg]
  · exact hr
  · rintro rfl
    cases h.symm.trans hr

theorem ImageTable.Extends.resource_eq (h : images.Extends images') (hid : (images.lookup id).isSome) :
    images'.resource id = images.resource id := by
  obtain ⟨r, hr⟩ := Option.isSome_iff_exists.1 hid
  rw [resource, resource, hr, h id r hr]

theorem TraceImage.intern_ok (h : i.intern images = .ok (r, images')) :
    images.Extends images' ∧ images'.lookup i.id = some r := by
  obtain ⟨r', hr, hintern⟩ | ⟨hnone, ⟨e, hintern, -⟩ | ⟨-, hintern⟩⟩ := i.intern_cases images
  · cases hintern.symm.trans h
    exact ⟨.refl images, hr⟩
  · cases hintern.symm.trans h
  · cases hintern.symm.trans h
    exact ⟨ImageTable.extends_add hnone _, by rw [ImageTable.lookup_add, if_pos rfl]⟩

theorem Mention.read_ok {m : Mention} (h : m.read images = .ok images') :
    images.Extends images' ∧ ∀ i ∈ m.image?, (images'.lookup i.id).isSome := by
  cases m with
  | tag t =>
    rw [read] at h
    cases ht : t.resolve with
    | error e => rw [ht] at h; cases h
    | ok tag =>
      rw [ht] at h
      cases h
      exact ⟨.refl images, nofun⟩
  | image i =>
    rw [read] at h
    cases hi : i.intern images with
    | error e => rw [hi] at h; cases h
    | ok p =>
      rw [hi] at h
      cases h
      obtain ⟨hext, hr⟩ := TraceImage.intern_ok hi
      refine ⟨hext, ?_⟩
      rintro j ⟨⟩
      exact Option.isSome_of_eq_some hr

theorem readAll_ok (h : readAll images ms = .ok images') :
    images.Extends images' ∧ ∀ i ∈ imagesIn ms, (images'.lookup i.id).isSome := by
  induction ms generalizing images with
  | nil =>
    cases h
    exact ⟨.refl _, nofun⟩
  | cons m ms ih =>
    obtain ⟨images₁, hm, hms⟩ := bind_eq_ok h
    obtain ⟨hfirst, hknown⟩ := m.read_ok hm
    obtain ⟨hrest, hall⟩ := ih hms
    refine ⟨hfirst.trans hrest, ?_⟩
    intro i hi
    obtain ⟨m', hm', himage⟩ := List.mem_filterMap.1 hi
    obtain rfl | hm' := List.mem_cons.1 hm'
    · obtain ⟨r, hr⟩ := Option.isSome_iff_exists.1 (hknown i himage)
      exact Option.isSome_of_eq_some (hrest _ _ hr)
    · exact hall i (List.mem_filterMap.2 ⟨m', hm', himage⟩)

theorem imagesIn_map (is : List TraceImage) : imagesIn (is.map .image) = is := by
  simp [imagesIn, List.filterMap_map, Function.comp_def, Mention.image?]

theorem readAll_append (images : ImageTable) (ms ms' : List Mention) :
    readAll images (ms ++ ms') = readAll images ms >>= fun images' ↦ readAll images' ms' := List.foldlM_append

end Table

section Resolving

variable {images images' : ImageTable} {resources resources' : String → Resource}

mutual

theorem TraceArg.under_congr : (a : TraceArg) → (∀ i ∈ a.images, resources i.id = resources' i.id) →
    a.under resources = a.under resources'
  | .null, _ | .bool _, _ | .int _, _ | .number _, _ | .name _, _ => rfl
  | .image i, h => congrArg Arg.image (h i (List.mem_singleton_self i))
  | .array items, h => congrArg Arg.array (TraceArg.underAll_congr items h)

theorem TraceArg.underAll_congr : (as : List TraceArg) →
    (∀ i ∈ TraceArg.imagesOf as, resources i.id = resources' i.id) →
    TraceArg.underAll resources as = TraceArg.underAll resources' as
  | [], _ => rfl
  | a :: rest, h => by
    rw [TraceArg.imagesOf, List.forall_mem_append] at h
    rw [TraceArg.underAll, TraceArg.underAll, a.under_congr h.1, TraceArg.underAll_congr rest h.2]

end

mutual

theorem TraceArg.resolve_eq : (a : TraceArg) → (images : ImageTable) →
    a.resolve images = (readAll images (a.images.map .image)).map fun images' ↦ (a.under images'.resource, images')
  | .null, images | .bool _, images | .int _, images | .number _, images | .name _, images => rfl
  | .image i, images => by
    rw [TraceArg.resolve, TraceArg.images, List.map_singleton, readAll, List.foldlM_cons, Mention.read]
    cases hi : i.intern images with
    | error e => rfl
    | ok p =>
      obtain ⟨r, images'⟩ := p
      obtain ⟨-, hr⟩ := TraceImage.intern_ok hi
      change _ = Except.ok (TraceArg.under images'.resource (.image i), images')
      rw [TraceArg.under, ImageTable.resource, hr]
      rfl
  | .array items, images => by
    rw [TraceArg.resolve, TraceArg.resolveAll_eq items images, TraceArg.images]
    cases readAll images ((TraceArg.imagesOf items).map .image) <;> rfl

theorem TraceArg.resolveAll_eq : (as : List TraceArg) → (images : ImageTable) →
    TraceArg.resolveAll as images = (readAll images ((TraceArg.imagesOf as).map .image)).map fun images' ↦
      (TraceArg.underAll images'.resource as, images')
  | [], images => rfl
  | a :: rest, images => by
    rw [TraceArg.resolveAll, a.resolve_eq images, TraceArg.imagesOf, List.map_append, readAll_append]
    cases ha : readAll images (a.images.map .image) with
    | error e => rfl
    | ok images₁ =>
      change (TraceArg.resolveAll rest images₁ >>= _) = _
      rw [TraceArg.resolveAll_eq rest images₁, ok_bind]
      cases hrest : readAll images₁ ((TraceArg.imagesOf rest).map .image) with
      | error e => rfl
      | ok images₂ =>
        have hstays : a.under images₁.resource = a.under images₂.resource := by
          apply TraceArg.under_congr
          intro i hi
          have hknown := (readAll_ok ha).2 i ((imagesIn_map a.images).symm ▸ hi)
          exact ((readAll_ok hrest).1.resource_eq hknown).symm
        change Except.ok (a.under images₁.resource :: TraceArg.underAll images₂.resource rest, images₂) =
          Except.ok (TraceArg.underAll images₂.resource (a :: rest), images₂)
        rw [hstays, TraceArg.underAll]

end

variable {e : TraceFailure} {entry : TraceEntry} {addition : Addition} {ms : List Mention}

theorem TagRef.resolve_cases (t : TagRef) :
    (∃ tag, t.resolve = .ok tag ∧ t.Means tag) ∨
      ∃ name, t = .name name ∧ Tag.ofName? name = none ∧ t.resolve = .error (.invalid (.unknownName name)) := by
  cases t with
  | code c => exact .inl ⟨⟨c⟩, rfl, rfl⟩
  | name s =>
    rw [resolve]
    cases hs : Tag.ofName? s with
    | some tag => exact .inl ⟨tag, rfl, hs⟩
    | none => exact .inr ⟨s, rfl, hs, rfl⟩

theorem TraceEntry.Becomes.congr (h : entry.Becomes resources addition)
    (hsame : ∀ i ∈ imagesIn entry.mentions, resources i.id = resources' i.id) : entry.Becomes resources' addition := by
  cases entry with
  | dependency id => cases addition <;> exact h
  | instruction tag args =>
    cases addition with
    | dependency id => exact h
    | instruction i =>
      obtain ⟨htag, hargs⟩ := h
      refine ⟨htag, ?_⟩
      rw [hargs]
      apply TraceArg.underAll_congr
      intro i hi
      exact hsame i ((imagesIn_map (TraceArg.imagesOf args)).symm ▸ hi)

theorem TraceEntry.resolve_cases (entry : TraceEntry) (images : ImageTable) :
    (∃ e, entry.resolve images = .error e ∧ readAll images entry.mentions = .error e) ∨
      ∃ addition images', entry.resolve images = .ok (addition, images') ∧
        readAll images entry.mentions = .ok images' ∧ entry.Becomes images'.resource addition := by
  cases entry with
  | dependency id => exact .inr ⟨.dependency id, images, rfl, rfl, rfl⟩
  | instruction t args =>
    rw [resolve, mentions, readAll, List.foldlM_cons, Mention.read]
    obtain ⟨tag, htag, hmeans⟩ | ⟨name, rfl, -, htag⟩ := t.resolve_cases
    · rw [htag, ok_bind, TraceArg.resolveAll_eq]
      change (∃ e, _ ∧ readAll images ((TraceArg.imagesOf args).map .image) = _) ∨
        ∃ addition images', _ ∧ readAll images ((TraceArg.imagesOf args).map .image) = _ ∧ _
      cases hargs : readAll images ((TraceArg.imagesOf args).map .image) with
      | error e => exact .inl ⟨e, rfl, rfl⟩
      | ok images' => exact .inr ⟨_, images', rfl, rfl, hmeans, rfl⟩
    · rw [htag]
      exact .inl ⟨.invalid (.unknownName name), rfl, rfl⟩

end Resolving

section Reading

variable {images images' : ImageTable} {before ms : List Mention} {m : Mention} {e e' : TraceFailure}

theorem imagesIn_append (ms ms' : List Mention) : imagesIn (ms ++ ms') = imagesIn ms ++ imagesIn ms' :=
  List.filterMap_append

theorem Faultless.snoc (h : Faultless ms) (hm : ∀ e, ¬ m.Fails ms e) : Faultless (ms ++ [m]) := by
  intro before m' after e heq
  obtain ⟨rfl, rfl, -⟩ | ⟨after', heq, -⟩ := append_cons_eq_concat heq
  · exact hm e
  · exact h before m' after' e heq

theorem Mention.Fails.unique (h : m.Fails ms e) (h' : m.Fails ms e') : e = e' := by
  cases h with
  | unknownName => cases h' with | unknownName => rfl
  | emptyImage _ hempty =>
    cases h' with
    | emptyImage => rfl
    | tooLarge _ hfull => exact absurd hempty hfull
  | tooLarge _ hfull =>
    cases h' with
    | emptyImage _ hempty => exact absurd hempty hfull
    | tooLarge => rfl

theorem Faultless.length_le {before' after after' : List Mention} {m' : Mention} (h : Faultless before')
    (heq : before ++ m :: after = before' ++ m' :: after') (hm : m.Fails before e) : before'.length ≤ before.length := by
  obtain ⟨between, rfl, hrest⟩ | ⟨between, rfl, -⟩ := List.append_eq_append_iff.1 heq
  · cases between with
    | nil => rw [List.append_nil]
    | cons m₁ between =>
      obtain ⟨rfl, -⟩ := List.cons.inj hrest
      exact absurd hm (h before m between e rfl)
  · rw [List.length_append]
    exact Nat.le_add_right _ _

theorem FirstFault.unique (h : FirstFault ms e) (h' : FirstFault ms e') : e = e' := by
  obtain ⟨before, m, after, rfl, hm, hbefore⟩ := h
  obtain ⟨before', m', after', heq, hm', hbefore'⟩ := h'
  have hlength : before.length = before'.length :=
    le_antisymm (hbefore.length_le heq.symm hm') (hbefore'.length_le heq hm)
  obtain ⟨rfl, hrest⟩ := List.append_inj heq hlength
  obtain ⟨rfl, -⟩ := List.cons.inj hrest
  exact hm.unique hm'

namespace ImageTable.Registers

theorem lookup_eq_none_iff (h : images.Registers ms) (i : TraceImage) :
    images.lookup i.id = none ↔ i.IsNew ms := by
  rw [← Option.not_isSome_iff_eq_none, h.known, TraceImage.IsNew, not_exists]
  simp only [not_and]

theorem skip (h : images.Registers ms) (hm : ∀ i ∈ m.image?, ¬ i.IsNew ms) : images.Registers (ms ++ [m]) where
  known id := by
    rw [h.known, imagesIn_append]
    constructor
    · rintro ⟨i, hi, hid⟩
      exact ⟨i, List.mem_append_left _ hi, hid⟩
    · rintro ⟨i, hi, rfl⟩
      obtain hi | hi := List.mem_append.1 hi
      · exact ⟨i, hi, rfl⟩
      · have himage : m.image? = some i := by simpa [imagesIn] using hi
        simpa [TraceImage.IsNew] using hm i himage
  image before i after heq hnew := by
    obtain ⟨rfl, rfl, -⟩ | ⟨after', heq, -⟩ := append_cons_eq_concat heq
    · exact absurd hnew (hm i rfl)
    · exact h.image before i after' heq hnew
  number := h.number
  apart := h.apart

theorem add {i : TraceImage} (h : images.Registers ms) (hnew : i.IsNew ms) :
    (images.add i.id ⟨some (toString images.decoded), i.shown⟩).Registers (ms ++ [.image i]) where
  known id := by
    rw [lookup_add, imagesIn_append]
    split
    · rename_i hid
      simp [imagesIn, Mention.image?, hid]
    · rename_i hid
      rw [h.known]
      simp [imagesIn, Mention.image?, Ne.symm hid]
  image before j after heq hnew' := by
    obtain ⟨rfl, heq, -⟩ | ⟨after', heq, -⟩ := append_cons_eq_concat heq
    · cases heq
      exact ⟨_, by rw [lookup_add, if_pos rfl], rfl⟩
    · obtain ⟨r, hr, hshown⟩ := h.image before j after' heq hnew'
      refine ⟨r, ?_, hshown⟩
      rw [lookup_add, if_neg]
      · exact hr
      · have hj : j ∈ imagesIn ms := by simp [heq, imagesIn, Mention.image?]
        exact hnew j hj
  number id r hr := by
    rw [lookup_add] at hr
    split at hr
    · cases hr
      exact ⟨images.decoded, Nat.lt_succ_self _, rfl⟩
    · obtain ⟨n, hn, hid⟩ := h.number id r hr
      exact ⟨n, hn.trans (Nat.lt_succ_self _), hid⟩
  apart id id' r r' hr hr' heq := by
    have hother {id : String} {r : Resource} (hr : images.lookup id = some r) :
        r.id ≠ some (toString images.decoded) := by
      obtain ⟨n, hn, hid⟩ := h.number id r hr
      rw [hid, Ne, Option.some_inj]
      exact fun heq ↦ hn.ne (toString_injective heq)
    rw [lookup_add] at hr hr'
    split at hr <;> split at hr'
    · rename_i hid hid'
      rw [hid, hid']
    · cases hr
      exact absurd heq.symm (hother hr')
    · cases hr'
      exact absurd heq (hother hr)
    · exact h.apart id id' r r' hr hr' heq

theorem read (h : images.Registers ms) (m : Mention) :
    (∃ e, m.read images = .error e ∧ m.Fails ms e) ∨
      ∃ images', m.read images = .ok images' ∧ images'.Registers (ms ++ [m]) ∧ ∀ e, ¬ m.Fails ms e := by
  cases m with
  | tag t =>
    rw [Mention.read]
    obtain ⟨tag, htag, hmeans⟩ | ⟨name, rfl, hnone, htag⟩ := t.resolve_cases
    · rw [htag]
      refine .inr ⟨images, rfl, h.skip nofun, ?_⟩
      rintro e (hnone | -)
      cases hmeans.symm.trans hnone
    · rw [htag]
      exact .inl ⟨_, rfl, .unknownName hnone⟩
  | image i =>
    rw [Mention.read]
    obtain ⟨r, hr, hintern⟩ | ⟨hnone, hintern⟩ := i.intern_cases images
    · have hold : ¬ i.IsNew ms := by
        rw [← h.lookup_eq_none_iff, hr]
        exact Option.some_ne_none r
      rw [hintern]
      refine .inr ⟨images, rfl, h.skip ?_, ?_⟩
      · rintro j ⟨⟩
        exact hold
      · rintro e (- | ⟨hnew, -⟩ | ⟨hnew, -, -⟩)
        · exact hold hnew
        · exact hold hnew
    · have hnew := (h.lookup_eq_none_iff i).1 hnone
      obtain ⟨e, hintern, hfails⟩ | ⟨⟨hfull, hfits⟩, hintern⟩ := hintern
      · rw [hintern]
        exact .inl ⟨e, rfl, hfails ms hnew⟩
      · rw [hintern]
        refine .inr ⟨_, rfl, h.add hnew, ?_⟩
        rintro e (- | ⟨-, hempty⟩ | ⟨-, -, hlarge⟩)
        · exact hfull hempty
        · exact absurd hfits (Nat.not_lt.2 hlarge)

theorem readAll (h : images.Registers before) (hbefore : Faultless before) (ms : List Mention) :
    (∃ e, DisplayList.readAll images ms = .error e ∧ FirstFault (before ++ ms) e) ∨
      ∃ images', DisplayList.readAll images ms = .ok images' ∧ images'.Registers (before ++ ms) ∧
        Faultless (before ++ ms) := by
  induction ms generalizing images before with
  | nil =>
    rw [List.append_nil]
    exact .inr ⟨images, rfl, h, hbefore⟩
  | cons m ms ih =>
    rw [DisplayList.readAll, List.foldlM_cons]
    obtain ⟨e, hread, hfails⟩ | ⟨images₁, hread, h₁, hm⟩ := h.read m
    · rw [hread]
      exact .inl ⟨e, rfl, before, m, ms, rfl, hfails, hbefore⟩
    · rw [hread, ok_bind]
      have hrest := ih h₁ (hbefore.snoc hm)
      rwa [List.append_assoc, List.singleton_append] at hrest

end ImageTable.Registers

end Reading

namespace Trace

end Trace

end DisplayList
