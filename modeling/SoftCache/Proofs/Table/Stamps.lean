import Mathlib.Data.List.Pairwise
import Mathlib.Logic.Function.Basic
import SoftCache.Proofs.Table.Evicting
import SoftCache.Proofs.Table.Capacity
import SoftCache.Proofs.Table.Probing

/-!
# The order of use

A slot is stamped when it comes, and in order of recency whenever it is used (`Table.marks`). In
every bucket the slots that have not been stamped since the table was last resized come first, and
then the others in the order of their stamps (`Stamps.Orders`). Only two things put a slot in
another place than it had: one that is stamped goes to the end of its bucket, and a table that is
resized forgets all stamps. Everything else takes slots out and leaves the others in their order
(`Table.Wanes`). So every request keeps the order (`Table.Sound.moves_perform`).
-/

open scoped List

namespace SoftCache

variable {K V α β : Type}

/-! ## Stamps -/

/-- Something that happens to the stamps of a table. -/
inductive Mark (K : Type) where
  /-- The slot of a key is stamped. -/
  | stamped (key : Option K)
  /-- The table is resized. -/
  | resized
deriving DecidableEq

/-- When the slots of a table were stamped. They are told apart by their keys. -/
structure Stamps (K : Type) where
  /-- The time of the last stamp. -/
  clock : Nat
  /-- The time of the last stamp of a slot since the table was resized, or zero without one. -/
  last : Option K → Nat
  /-- Time goes on. -/
  last_le : ∀ key, last key ≤ clock

namespace Stamps

/-- No slot has been stamped. -/
def fresh : Stamps K :=
  ⟨0, fun _ => 0, fun _ => le_rfl⟩

/-- The stamps after something has happened to them. -/
def mark [DecidableEq K] (σ : Stamps K) : Mark K → Stamps K
  | .stamped key =>
    ⟨σ.clock + 1, Function.update σ.last key (σ.clock + 1), fun other => by
      rw [Function.update_apply]
      split
      · exact le_rfl
      · exact (σ.last_le other).trans (Nat.le_succ _)⟩
  | .resized => ⟨σ.clock, fun _ => 0, fun _ => Nat.zero_le _⟩

/-- The stamps after one thing after the other has happened to them. -/
def marked [DecidableEq K] (σ : Stamps K) (marks : List (Mark K)) : Stamps K :=
  marks.foldl mark σ

/-- Slots of which those with a stamp come last, in the order of their stamps. -/
def Sorts (σ : Stamps K) (slots : List (Slot K V)) : Prop :=
  slots.Pairwise fun s s' =>
    0 < σ.last s.key.content → σ.last s.key.content < σ.last s'.key.content

/-- A table of which every bucket is in the order of the stamps. -/
def Orders (σ : Stamps K) (t : Table K V) : Prop :=
  ∀ i, σ.Sorts (t.buckets.bucket i)

/-- Slots are in the order of the stamps if those without a stamp come first, and then the others
from the earliest stamp to the latest. -/
theorem sorts_iff {σ : Stamps K} {slots : List (Slot K V)} :
    σ.Sorts slots ↔ ∃ old recent, slots = old ++ recent ∧
      (∀ s ∈ old, σ.last s.key.content = 0) ∧ (∀ s ∈ recent, 0 < σ.last s.key.content) ∧
      recent.Pairwise fun s s' => σ.last s.key.content < σ.last s'.key.content := by
  constructor
  · intro h
    induction slots with
    | nil => exact ⟨[], [], rfl, by simp, by simp, .nil⟩
    | cons s slots ih =>
      obtain ⟨hfirst, hrest⟩ := List.pairwise_cons.mp h
      rcases Nat.eq_zero_or_pos (σ.last s.key.content) with hzero | hpos
      · obtain ⟨old, recent, rfl, hold, hrecent, hsorted⟩ := ih hrest
        exact ⟨s :: old, recent, rfl, List.forall_mem_cons.mpr ⟨hzero, hold⟩, hrecent, hsorted⟩
      · -- A slot with a stamp has only later stamps after it.
        have hlater : ∀ s' ∈ slots, σ.last s.key.content < σ.last s'.key.content :=
          fun s' hs' => hfirst s' hs' hpos
        refine ⟨[], s :: slots, rfl, by simp, ?_, List.pairwise_cons.mpr ⟨hlater, ?_⟩⟩
        · exact List.forall_mem_cons.mpr ⟨hpos, fun s' hs' => hpos.trans (hlater s' hs')⟩
        · exact hrest.imp_of_mem fun hs _ himp => himp (hpos.trans (hlater _ hs))
  · rintro ⟨old, recent, rfl, hold, -, hsorted⟩
    refine List.pairwise_append.mpr
      ⟨?_, hsorted.imp fun hlt => fun _ => hlt, fun s hs _ _ hpos => ?_⟩
    · refine List.pairwise_of_forall_mem_list fun s hs _ _ hpos => ?_
      exact absurd (hold s hs) hpos.ne'
    · exact absurd (hold s hs) hpos.ne'

/-- Slots that are sorted stay so when some are left out. -/
theorem Sorts.sublist {σ : Stamps K} {slots slots' : List (Slot K V)} (h : σ.Sorts slots)
    (within : slots' <+ slots) : σ.Sorts slots' :=
  List.Pairwise.sublist within h

/-- Only the keys of slots matter. -/
theorem Sorts.of_keys {σ : Stamps K} {slots slots' : List (Slot K V)} (h : σ.Sorts slots)
    (keys : slots'.map (·.key.content) = slots.map (·.key.content)) : σ.Sorts slots' := by
  have hmap : (slots.map (·.key.content)).Pairwise fun key key' =>
      0 < σ.last key → σ.last key < σ.last key' := List.pairwise_map.mpr h
  exact List.pairwise_map.mp (keys ▸ hmap)

/-- Without stamps any order will do. -/
theorem orders_of_unstamped {σ : Stamps K} (unstamped : ∀ key, σ.last key = 0) (t : Table K V) :
    σ.Orders t := fun _ =>
  List.pairwise_of_forall fun _ _ hpos => absurd (unstamped _) hpos.ne'

section Marks

variable [DecidableEq K] {σ : Stamps K}

/-- A key that is stamped has the time of the stamp. -/
@[simp] theorem last_stamped_self (σ : Stamps K) (key : Option K) :
    (σ.mark (.stamped key)).last key = σ.clock + 1 :=
  Function.update_self ..

/-- Other keys keep their stamps. -/
theorem last_stamped_of_ne (σ : Stamps K) {key other : Option K} (hne : other ≠ key) :
    (σ.mark (.stamped key)).last other = σ.last other :=
  Function.update_of_ne hne ..

/-- A table that moves forgets all stamps. -/
@[simp] theorem last_resized (σ : Stamps K) (key : Option K) : (σ.mark .resized).last key = 0 := rfl

/-- Slots of other keys keep their stamps. -/
theorem Sorts.stamped {slots : List (Slot K V)} (h : σ.Sorts slots) {key : Option K}
    (absent : ∀ s ∈ slots, s.key.content ≠ key) : (σ.mark (.stamped key)).Sorts slots := by
  refine h.imp_of_mem fun hs hs' himp => ?_
  rwa [last_stamped_of_ne σ (absent _ hs), last_stamped_of_ne σ (absent _ hs')]

/-- A slot that is stamped belongs at the end. -/
theorem Sorts.stamped_last {slots : List (Slot K V)} (h : σ.Sorts slots) {slot : Slot K V}
    (absent : ∀ s ∈ slots, s.key.content ≠ slot.key.content) :
    (σ.mark (.stamped slot.key.content)).Sorts (slots ++ [slot]) := by
  refine List.pairwise_append.mpr ⟨h.stamped absent, List.pairwise_singleton .., ?_⟩
  intro s hs s' hs' _
  rw [List.mem_singleton.mp hs', last_stamped_self, last_stamped_of_ne σ (absent s hs)]
  exact Nat.lt_succ_of_le (σ.last_le _)

/-- Marks are made one after the other. -/
theorem marked_append (σ : Stamps K) (marks marks' : List (Mark K)) :
    σ.marked (marks ++ marks') = (σ.marked marks).marked marks' :=
  List.foldl_append

end Marks

end Stamps

/-! ## What is stamped -/

namespace Table

section Marks

variable [DecidableEq K] [Hashed K]

/-- What a lookup does to the stamps: in order of recency it stamps the slot that it finds. -/
def lookupMarks (t : Table K V) (r : Reclaimer) (key : Option K) : List (Mark K) :=
  if t.config.order = .recency ∧ (t.lookup r key).result.isSome then [.stamped key] else []

/-- What putting an entry does to the stamps: it stamps a new slot, and in order of recency one that
is given another value. For a new slot the table may be resized. -/
def insertMarks (t : Table K V) (r : Reclaimer) (key : Option K) (value : Option V) :
    List (Mark K) :=
  (if t.config.order = .insertion ∧ (t.insert r key value).result.previous.isSome then []
    else [.stamped key]) ++
  if (t.insert r key value).state.metrics.resizes = t.metrics.resizes then [] else [.resized]

/-- What a put does to the stamps, if it is not refused. -/
def putMarks (t : Table K V) (r : Reclaimer) (key : Option K) (value : Option V) : List (Mark K) :=
  match t.refusal key value with
  | some _ => []
  | none => t.insertMarks r key value

/-- What putting entries one after the other does to the stamps. -/
def putAllMarks (t : Table K V) (r : Reclaimer) : List (K × V) → List (Mark K)
  | [] => []
  | (key, value) :: rest =>
    let put := t.put r (some key) (some value)
    t.putMarks r (some key) (some value) ++ put.state.putAllMarks put.reclaimer rest

/-- What a request does to the stamps. -/
def marks (t : Table K V) (r : Reclaimer) : Request K V → List (Mark K)
  | .get key | .containsEntry key _ => t.lookupMarks r key
  | .put key value => t.putMarks r key value
  | .putAll (some entries) => t.putAllMarks r entries
  | _ => []

end Marks

end Table

/-! ## Work that takes slots out -/

/-- Work that takes slots out of buckets and leaves the others in their order. -/
def Step.Thins (t : Table K V) (step : Step (Table K V) (Notice K V) α) : Prop :=
  ∀ i, step.state.buckets.bucket i <+ t.buckets.bucket i

/-! ## Work that stamps slots -/

/-- The keys of a bucket, in the order of its slots. -/
def Buckets.keys (b : Buckets K V) (i : Nat) : List (Option K) :=
  (b.bucket i).map (·.key.content)

variable [DecidableEq K]

/-- Work in which slots are stamped and the table is resized as the marks say. -/
structure Step.Moves (t : Table K V) (step : Step (Table K V) (Notice K V) α)
    (marks : List (Mark K)) : Prop where
  /-- Every bucket stays in the order of the stamps. -/
  orders : ∀ σ : Stamps K, σ.Orders t → (σ.marked marks).Orders step.state
  /-- Unless the table is resized, slots that are not stamped stay in their order. -/
  others : .resized ∉ marks → ∀ i,
    (step.state.buckets.keys i).filter (fun key => .stamped key ∉ marks) <+ t.buckets.keys i

namespace Step.Moves

variable {t : Table K V} {marks marks' : List (Mark K)}

/-- Nothing is stamped. -/
theorem of_thins {step : Step (Table K V) (Notice K V) α} (h : step.Thins t) : step.Moves t [] where
  orders _ hσ i := (hσ i).sublist (h i)
  others _ i := List.filter_sublist.trans ((h i).map _)

/-- One piece of work and then another. -/
theorem andThen {first : Step (Table K V) (Notice K V) α} (h₁ : first.Moves t marks)
    (second : Table K V → Reclaimer → α → Step (Table K V) (Notice K V) β)
    (h₂ : (second first.state first.reclaimer first.result).Moves first.state marks') :
    (first.andThen second).Moves t (marks ++ marks') where
  orders σ hσ := by
    rw [Stamps.marked_append]
    exact h₂.orders _ (h₁.orders σ hσ)
  others hresized i := by
    rw [List.mem_append, not_or] at hresized
    have hfilter := ((h₂.others hresized.2 i).filter fun key => .stamped key ∉ marks).trans
      (h₁.others hresized.1 i)
    rw [List.filter_filter] at hfilter
    simp only [List.mem_append, not_or, Bool.decide_and]
    exact hfilter

/-- Only the buckets that are left matter. -/
theorem same {step : Step (Table K V) (Notice K V) α} {step' : Step (Table K V) (Notice K V) β}
    (h : step.Moves t marks) (buckets : step'.state.buckets = step.state.buckets) :
    step'.Moves t marks where
  orders σ hσ i := by
    rw [buckets]
    exact h.orders σ hσ i
  others hresized i := by
    rw [buckets]
    exact h.others hresized i

/-- The keys of all buckets stay in their order. -/
theorem of_keys {step : Step (Table K V) (Notice K V) α}
    (keys : ∀ i, step.state.buckets.keys i = t.buckets.keys i) : step.Moves t [] where
  orders _ hσ i := (hσ i).of_keys (keys i)
  others _ i := List.filter_sublist.trans (keys i ▸ .refl _)

end Step.Moves

namespace Table

variable [Hashed K] {t : Table K V} {r : Reclaimer} {key : Option K}

omit [DecidableEq K] in
/-- A slot of a key is in no other bucket than that of the key. -/
theorem Coherent.ne_key (h : t.Coherent) {i : Nat} (hi : i ≠ t.indexOf key) :
    ∀ s ∈ t.buckets.bucket i, s.key.content ≠ key := by
  rintro s hs rfl
  have hhash := h.hashed s (Buckets.mem_slots.mpr ⟨i, hs⟩)
  rw [indexOf, ← hhash] at hi
  exact hi (h.placed i s hs).symm

omit [DecidableEq K] in
/-- A bucket has one slot of a key at most. -/
theorem Coherent.ne_key_of_split (h : t.Coherent) {i : Nat} {before after : List (Slot K V)}
    {slot : Slot K V} (bucket : t.buckets.bucket i = before ++ slot :: after) :
    ∀ s ∈ before ++ after, s.key.content ≠ slot.key.content := by
  have hinside : i < t.buckets.size :=
    Buckets.lt_size_of_mem (bucket ▸ List.mem_append_right before List.mem_cons_self)
  obtain ⟨first, last, hslots, -⟩ := t.buckets.slots_split hinside
  have hwithin : t.buckets.bucket i <+ t.buckets.slots := by
    rw [hslots]
    exact (List.sublist_append_right first _).trans (List.sublist_append_left _ last)
  have hnodup := h.distinct.sublist (hwithin.map (·.key.content))
  rw [bucket] at hnodup
  have hperm : before ++ slot :: after ~ slot :: (before ++ after) := List.perm_middle
  have halone := (List.nodup_cons.mp ((hperm.map (·.key.content)).nodup_iff.mp hnodup)).1
  exact fun s hs hkey => halone (List.mem_map.mpr ⟨s, hs, hkey⟩)

/-- A slot of a key comes last in the bucket of the key, which has no other slot of it then. -/
theorem Coherent.moves_last (h : t.Coherent) {step : Step (Table K V) (Notice K V) α}
    {l : List (Slot K V)} {slot : Slot K V} (hkey : slot.key.content = key)
    (buckets : step.state.buckets = t.buckets.set (t.indexOf key) (l ++ [slot]))
    (within : l <+ t.buckets.bucket (t.indexOf key)) (absent : ∀ s ∈ l, s.key.content ≠ key) :
    step.Moves t [.stamped key] := by
  have hinside : t.indexOf key < t.buckets.size := Nat.mod_lt _ h.capacity_pos
  have hhere : step.state.buckets.bucket (t.indexOf key) = l ++ [slot] := by
    rw [buckets, Buckets.bucket_set, if_pos ⟨rfl, hinside⟩]
  have helsewhere : ∀ i ≠ t.indexOf key, step.state.buckets.bucket i = t.buckets.bucket i := by
    intro i hi
    rw [buckets, Buckets.bucket_set, if_neg fun hthere => hi hthere.1.symm]
  subst hkey
  constructor
  case orders =>
    intro σ hσ i
    by_cases hi : i = t.indexOf slot.key.content
    · rw [hi, hhere]
      exact ((hσ _).sublist within).stamped_last absent
    · rw [helsewhere i hi]
      exact (hσ i).stamped (h.ne_key hi)
  case others =>
    intro _ i
    by_cases hi : i = t.indexOf slot.key.content
    · rw [hi, Buckets.keys, hhere, List.map_append, List.filter_append, List.map_singleton,
        List.filter_cons_of_neg (by simp), List.filter_nil, List.append_nil]
      exact List.filter_sublist.trans (within.map _)
    · rw [Buckets.keys, helsewhere i hi]
      exact List.filter_sublist

/-- A live slot is found just as well once its bucket has been tidied up. -/
theorem Coherent.slotFor?_tidy (h : t.Coherent) (issued : r.Issued t.payloads) {slot : Slot K V}
    (found : t.slotFor? r key = some slot) (live : slot.isStale r = false) :
    (t.tidy r key).state.Coherent ∧
      (t.tidy r key).state.slotFor? (t.tidy r key).reclaimer key = some slot := by
  unfold tidy
  split
  · obtain ⟨hmem, -, hcontent⟩ := h.slotFor?_eq_some_iff.mp found
    obtain ⟨hstays, hlive⟩ := mem_purge_of_live issued (t.indexOf key) hmem live
    have hpurged := h.purge r (t.indexOf key)
    exact ⟨hpurged, hpurged.slotFor?_eq_some_iff.mpr
      ⟨hstays, (Slot.isStale_eq_false_iff.mp hlive).1, hcontent⟩⟩
  · exact ⟨h, found⟩

/-- In order of recency the slot that is touched goes to the end of its bucket. -/
theorem Coherent.moves_touch (h : t.Coherent) (order : t.config.order = .recency)
    {slot : Slot K V} (found : t.slotFor? r key = some slot) (count : Metrics → Metrics)
    (result : α) :
    (Step.done ((t.tally count).touch r key) r result : Step (Table K V) (Notice K V) α).Moves t
      [.stamped key] := by
  obtain ⟨hmem, -, -, rfl⟩ := slotFor?_spec found
  obtain ⟨-, before, after, hbucket, herase, -⟩ := split_of_find? found
  have hinside := Buckets.lt_size_of_mem hmem
  have htouch : ((t.tally count).touch r slot.key.content).buckets =
      t.buckets.set (t.indexOf slot.key.content) (before ++ after ++ [slot]) := by
    have htallied : (t.tally count).slotFor? r slot.key.content = some slot := found
    have herased :
        ((t.tally count).buckets.bucket ((t.tally count).indexOf slot.key.content)).eraseP
          (·.isFor r (nullableHash slot.key.content) slot.key.content) = before ++ after := herase
    have horder : (t.tally count).config.order = .recency := order
    rw [slotFor?] at htallied
    simp only [touch, horder, moveToBack, herased, htallied, Option.toList_some]
    rfl
  refine h.moves_last rfl htouch ?_ (h.ne_key_of_split hbucket)
  rw [hbucket]
  exact (List.sublist_cons_self slot after).append_left before

/-- In order of recency a lookup stamps the slot that it finds, and nothing else. -/
theorem Coherent.moves_lookup (h : t.Coherent) (issued : r.Issued t.payloads) (key : Option K) :
    (t.lookup r key).Moves t (t.lookupMarks r key) := by
  by_cases hkey : t.excludes key = true
  · have hmiss : (t.lookup r key).result = none := by
      rw [lookup, if_pos hkey]
      rfl
    rw [lookupMarks, hmiss, if_neg (by simp), lookup, if_pos hkey]
    exact .of_thins (Wanes.refl t).buckets
  · have htidy : (t.tidy r key).Moves t [] := .of_thins (t.wanes_tidy r key).buckets
    have hlookup := lookup_eq r (by simpa using hkey)
    cases found : (t.slotFor? r key).filter fun slot => !slot.value.isCleared r with
    | none =>
      rw [found] at hlookup
      rw [lookupMarks, hlookup, if_neg (by simp [Step.done])]
      exact htidy.same rfl
    | some slot =>
      rw [found] at hlookup
      obtain ⟨hslot, hvalue⟩ := Option.filter_eq_some_iff.mp found
      obtain ⟨hmem, hlive, -⟩ := h.slotFor?_eq_some_iff.mp hslot
      have hstale := Slot.isStale_eq_false_iff.mpr ⟨hlive, by simpa using hvalue⟩
      obtain ⟨htidied, hfound⟩ := h.slotFor?_tidy issued hslot hstale
      have hconfig : (t.tidy r key).state.config = t.config := by
        unfold tidy
        split <;> rfl
      cases order : t.config.order with
      | insertion =>
        rw [lookupMarks, if_neg (by simp [order]), hlookup]
        refine htidy.same ?_
        have horder := (congrArg Config.order hconfig).trans order
        simp only [Step.andThen_state, Step.done, touch, tally, horder]
      | recency =>
        rw [lookupMarks, hlookup, if_pos ⟨order, rfl⟩]
        have htouch := htidied.moves_touch ((congrArg Config.order hconfig).trans order) hfound
          (fun m => { m with hits := m.hits + 1 }) (some (slot.value.get r))
        exact htidy.andThen (fun t r _ => .done ((t.tally _).touch r key) r _) htouch

/-! ### Putting -/

/-- A slot that is given another value stays where it is, or in order of recency is stamped and goes
to the end of its bucket. -/
theorem Coherent.moves_replaceValue (h : t.Coherent) {slot : Slot K V}
    (found : t.slotFor? r key = some slot) (value : Option V) :
    (t.replaceValue r key slot value).Moves t
      (if t.config.order = .insertion then [] else [.stamped key]) := by
  obtain ⟨hmem, -, -, rfl⟩ := slotFor?_spec found
  obtain ⟨-, before, after, hbucket, herase, hreplace⟩ := split_of_find? found
  have hinside := Buckets.lt_size_of_mem hmem
  let renewed : Slot K V := { slot with value := (Held.of t.config.valueStrength value r).holder }
  cases order : t.config.order with
  | insertion =>
    have hbuckets : (t.replaceValue r slot.key.content slot value).state.buckets =
        t.buckets.set (t.indexOf slot.key.content) (before ++ renewed :: after) := by
      simp only [Table.replaceValue, order]
      exact congrArg _ (hreplace renewed)
    rw [if_pos rfl]
    refine .of_keys fun j => ?_
    rw [Buckets.keys, Buckets.keys, hbuckets, Buckets.bucket_set]
    split
    · next hthere =>
      rw [← hthere.1, hbucket, List.map_append, List.map_append, List.map_cons, List.map_cons]
    · rfl
  | recency =>
    have hbuckets : (t.replaceValue r slot.key.content slot value).state.buckets =
        t.buckets.set (t.indexOf slot.key.content) (before ++ after ++ [renewed]) := by
      simp only [Table.replaceValue, order]
      exact congrArg (fun l => t.buckets.set _ (l ++ [renewed])) herase
    rw [if_neg (by simp)]
    have hkey : renewed.key.content = slot.key.content := rfl
    refine h.moves_last hkey hbuckets ?_ (h.ne_key_of_split hbucket)
    rw [hbucket]
    exact (List.sublist_cons_self slot after).append_left before

omit [DecidableEq K] [Hashed K] in
/-- A table that is enlarged is resized at least once. -/
theorem resizes_enlarge (t : Table K V) (r : Reclaimer) :
    t.metrics.resizes < (t.enlarge r).state.metrics.resizes := by
  induction t, r using enlarge_induction with
  | case1 t r moved enough =>
    rw [enlarge_eq, if_pos enough]
    exact Nat.lt_succ_self _
  | case2 t r moved more ih =>
    rw [enlarge_eq, if_neg more]
    exact (Nat.lt_succ_self _).trans ih

/-- A slot of a new key comes last in its bucket with a stamp. -/
theorem Coherent.moves_addSlot (h : t.Coherent) (value : Option V)
    (absent : key ∉ t.buckets.slots.map (·.key.content)) :
    (t.addSlot r key value).Moves t [.stamped key] := by
  refine h.moves_last (congrArg Prod.fst (content_newSlot t r key value)) rfl (.refl _) ?_
  rintro s hs rfl
  exact absent (List.mem_map_of_mem (Buckets.mem_slots.mpr ⟨_, hs⟩))

omit [Hashed K] in
/-- A table that grows is resized, and otherwise nothing changes. -/
theorem moves_grow (t : Table K V) (r : Reclaimer) :
    (t.grow r).Moves t
      (if (t.grow r).state.metrics.resizes = t.metrics.resizes then [] else [.resized]) := by
  rw [grow_eq]
  split
  · rw [if_pos (Step.Rests.done t r ()).resizes]
    exact .of_thins (Wanes.refl t).buckets
  · rw [if_neg (t.resizes_enlarge r).ne']
    -- Once a table is resized no slot has a stamp.
    exact ⟨fun σ _ => Stamps.orders_of_unstamped σ.last_resized _,
      fun hnot => absurd (List.mem_singleton_self _) hnot⟩

/-- What an entry without a slot of its key does to the stamps is done before the table looks at its
bound. -/
theorem insertMarks_of_missing (value : Option V)
    (missing : (t.purge r (t.indexOf key)).state.slotFor?
    (t.purge r (t.indexOf key)).reclaimer key = none) :
    t.insertMarks r key value = [.stamped key] ++
      if (t.enter r key value).state.metrics.resizes = t.metrics.resizes then []
      else [.resized] := by
  have hinsert := insert_of_missing value missing
  have hprevious : (t.insert r key value).result.previous = none := by
    rw [hinsert]
    rfl
  have hresizes : (t.insert r key value).state.metrics.resizes =
      (t.enter r key value).state.metrics.resizes := by
    rw [hinsert]
    exact (wanes_enforceBound _ _).resizes
  rw [insertMarks, hprevious, hresizes, if_neg (by simp)]

/-- An entry without a slot of its key is stamped, and the table may be resized. -/
theorem Coherent.moves_enter (h : t.Coherent) (issued : r.Issued t.payloads)
    (missing : (t.purge r (t.indexOf key)).state.slotFor?
      (t.purge r (t.indexOf key)).reclaimer key = none) (value : Option V) :
    (t.enter r key value).Moves t (t.insertMarks r key value) := by
  set purged := t.purge r (t.indexOf key) with hpurged
  have hcoherent : purged.state.Coherent := h.purge r _
  have habsent := hcoherent.absent_of_missing (clean_purge_indexOf issued key) missing
  have hadd := hcoherent.moves_addSlot (r := purged.reclaimer) value habsent
  have hgrow := moves_grow (purged.state.addSlot purged.reclaimer key value).state
    (purged.state.addSlot purged.reclaimer key value).reclaimer
  rw [insertMarks_of_missing value missing]
  exact (Step.Moves.of_thins (t.wanes_purge r _).buckets).andThen _ (hadd.andThen _ hgrow)

/-- Putting an entry stamps its slot or leaves that where it is. -/
theorem Coherent.moves_insert (h : t.Coherent) (issued : r.Issued t.payloads) (key : Option K)
    (value : Option V) : (t.insert r key value).Moves t (t.insertMarks r key value) := by
  set purged := t.purge r (t.indexOf key) with hpurged
  cases found : purged.state.slotFor? purged.reclaimer key with
  | none =>
    have hwanes := wanes_enforceBound (t.enter r key value).state (t.enter r key value).reclaimer
    have hboth := (h.moves_enter issued found value).andThen
      (fun t r _ => (t.enforceBound r).map (Placement.mk none)) (.of_thins hwanes.buckets)
    rwa [List.append_nil, ← insert_of_missing value found] at hboth
  | some slot =>
    have hinsert : t.insert r key value =
        purged.andThen fun t r _ => t.replaceValue r key slot value := by
      rw [insert_eq]
      simp only [Step.andThen, insertFound, ← hpurged, found]
    have hprevious : (t.insert r key value).result.previous.isSome = true := by
      rw [hinsert]
      rfl
    have hresizes : (t.insert r key value).state.metrics.resizes = t.metrics.resizes := by
      rw [hinsert]
      exact (purged.state.rests_replaceValue _ found value).resizes
    have hreplace := (h.purge r (t.indexOf key)).moves_replaceValue found value
    have hboth := (Step.Moves.of_thins (t.wanes_purge r _).buckets).andThen
      (fun t r _ => t.replaceValue r key slot value) hreplace
    rw [insertMarks, if_pos hresizes, hprevious, List.append_nil, hinsert]
    simp only [and_true]
    exact hboth

/-- A put makes its marks, and keeps the slots in the order of their stamps. -/
theorem Sound.moves_put (h : t.Sound) (issued : r.Issued t.payloads) (key : Option K)
    (value : Option V) : (t.put r key value).Moves t (t.putMarks r key value) := by
  cases hrefusal : t.refusal key value with
  | some reason =>
    rw [put, putMarks, hrefusal]
    exact .of_thins (Wanes.refl t).buckets
  | none =>
    rw [put, putMarks, hrefusal]
    exact (h.toCoherent.moves_insert issued key value).same rfl

/-- To put entries makes the marks of each of them in turn. -/
theorem Sound.moves_putAll (h : t.Sound) (issued : r.Issued t.payloads) (entries : List (K × V)) :
    (t.putAll r entries).Moves t (t.putAllMarks r entries) := by
  -- By induction on the entries, each of which is put into a sound table.
  induction entries generalizing t r with
  | nil => exact .of_thins (Wanes.refl t).buckets
  | cons entry rest ih =>
    have hput := upholds_put h issued (some entry.1) (some entry.2)
    exact (h.moves_put issued _ _).andThen (fun t r _ => t.putAll r rest)
      (ih hput.sound hput.issued)

/-- What a request does to the stamps is what it does to the order in the buckets. -/
theorem Sound.moves_perform [DecidableEq V] (h : t.Sound) (issued : r.Issued t.payloads)
    (request : Request K V) : (t.perform r request).Moves t (t.marks r request) := by
  cases request with
  | get key | containsEntry key => exact (h.toCoherent.moves_lookup issued key).same rfl
  | put key value => exact (h.moves_put issued key value).same rfl
  | putAll source =>
    cases source with
    | none => exact .of_thins (t.wanes_perform r rfl).buckets
    | some entries => exact (h.moves_putAll issued entries).same rfl
  | _ => exact .of_thins (t.wanes_perform r rfl).buckets

end Table

end SoftCache
