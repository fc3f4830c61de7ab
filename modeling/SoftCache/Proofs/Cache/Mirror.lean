import Mathlib.Logic.Function.Basic
import SoftCache.Cache.Update
import SoftCache.Proofs.Table.Ledger

/-!
# What a listener knows

Somebody who listens to a cache keeps a `Mirror` of it: an entry is put down when it is announced as
added and crossed out when it is announced as removed. `Replays` is that bookkeeping. It gets stuck
at an addition of a key that is there already, at a removal of an entry that is not there or has
another value, and at an expiration of an entry that has not lost its value. `Follows` says that
notices lead from one list of entries to another without getting stuck, and the lemmas here give the
notices that do so: one addition, one removal, and the departures from a soft tier.
-/

open scoped List

namespace SoftCache.Cache

variable {K V : Type}

/-- The entries that somebody who listens knows of: the value of each key that has one, which may be
null. -/
abbrev Mirror (K V : Type) := K → Option (Option V)

namespace Mirror

/-- A mirror of nothing. -/
def empty : Mirror K V := fun _ => none

section Replay

variable [DecidableEq K]

/-- Puts an entry down. -/
def enter (m : Mirror K V) (key : K) (value : Option V) : Mirror K V :=
  Function.update m key (some value)

/-- Crosses an entry out. -/
def strike (m : Mirror K V) (key : K) : Mirror K V :=
  Function.update m key none

/-- Notices that lead from one mirror to another, where `lost` says which entries may expire. -/
inductive Replays (lost : K → V → Prop) : Mirror K V → List (Notice K V) → Mirror K V → Prop
  /-- Nothing is announced. -/
  | nil (m : Mirror K V) : Replays lost m [] m
  /-- An entry comes for a key that has none. -/
  | added {m m' : Mirror K V} {key : K} {value : Option V} {rest : List (Notice K V)} :
    m key = none → Replays lost (m.enter key value) rest m' →
      Replays lost m (.added key value :: rest) m'
  /-- An entry goes with the value that it has. -/
  | removed {m m' : Mirror K V} {key : K} {value : Option V} {rest : List (Notice K V)} :
    m key = some value → Replays lost (m.strike key) rest m' →
      Replays lost m (.removed key value false :: rest) m'
  /-- An entry goes that has lost its value. -/
  | expired {m m' : Mirror K V} {key : K} {value : V} {rest : List (Notice K V)} :
    m key = some (some value) → lost key value → Replays lost (m.strike key) rest m' →
      Replays lost m (.removed key none true :: rest) m'

variable {lost lost' : K → V → Prop} {m m' m'' : Mirror K V} {notices notices' : List (Notice K V)}

/-- Notices can be heard in parts. -/
theorem Replays.append (h : Replays lost m notices m') (h' : Replays lost m' notices' m'') :
    Replays lost m (notices ++ notices') m'' := by
  induction h with
  | nil => exact h'
  | added hkey _ ih => exact .added hkey (ih h')
  | removed hkey _ ih => exact .removed hkey (ih h')
  | expired hkey hlost _ ih => exact .expired hkey hlost (ih h')

/-- It does no harm if more may expire. -/
theorem Replays.mono (h : Replays lost m notices m') (hlost : ∀ key value, lost key value →
    lost' key value) : Replays lost' m notices m' := by
  induction h with
  | nil => exact .nil _
  | added hkey _ ih => exact .added hkey ih
  | removed hkey _ ih => exact .removed hkey ih
  | expired hkey hl _ ih => exact .expired hkey (hlost _ _ hl) ih

/-- The notices decide what the mirror comes to. -/
theorem Replays.unique (h : Replays lost m notices m') (h' : Replays lost' m notices m'') :
    m'' = m' := by
  induction h with
  | nil =>
    cases h'
    rfl
  | added _ _ ih =>
    cases h' with
    | added _ h' => exact ih h'
  | removed _ _ ih =>
    cases h' with
    | removed _ h' => exact ih h'
  | expired _ _ _ ih =>
    cases h' with
    | expired _ _ h' => exact ih h'

section Known

variable {key : K} {value : Option V} {old : Option (Option V)}

/-- What is announced to be replaced is what was known of the key. -/
theorem Replays.of_replace
    (h : Replays lost m ((old.toList.map fun old => .removed key old false) ++ [.added key value])
      m') : m key = old ∧ m' = m.enter key value := by
  cases old with
  | none =>
    obtain _ | ⟨habsent, _ | _⟩ := h
    exact ⟨habsent, rfl⟩
  | some old =>
    obtain _ | _ | ⟨hknown, _ | ⟨-, _ | _⟩⟩ := h
    exact ⟨hknown, Function.update_idem ..⟩

/-- What is announced to be removed is what was known of the key. -/
theorem Replays.of_remove (h : Replays lost m (old.toList.map fun old => .removed key old false) m')
    (absent : old = none → m key = none) : m key = old ∧ m' = m.strike key := by
  cases old with
  | none =>
    obtain _ | _ := h
    exact ⟨absent rfl, (Function.update_eq_self_iff.mpr (absent rfl).symm).symm⟩
  | some old =>
    obtain _ | _ | ⟨hknown, _ | _⟩ := h
    exact ⟨hknown, rfl⟩

end Known

end Replay

/-! ## Mirrors of lists -/

/-- Whether a mirror shows just the entries of a list. -/
def Reads (m : Mirror K V) (l : List (Entry K V)) : Prop :=
  ∀ key value, m key = some value ↔ (some key, value) ∈ l

/-- In the empty mirror nothing is read. -/
theorem reads_empty : Reads (empty (K := K) (V := V)) [] := by
  intro key value
  simp [empty]

/-- The order of what is read does not matter. -/
theorem Reads.perm {m : Mirror K V} {l l' : List (Entry K V)} (h : Reads m l) (hl : l ~ l') :
    Reads m l' :=
  fun key value => (h key value).trans hl.mem_iff

/-- Nothing is known of a key just if it has no entry. -/
theorem Reads.eq_none_iff {m : Mirror K V} {l : List (Entry K V)} (h : Reads m l) {key : K} :
    m key = none ↔ some key ∉ l.map Prod.fst := by
  rw [Option.eq_none_iff_forall_ne_some]
  constructor
  · rintro hnone hmem
    obtain ⟨⟨_, value⟩, hentry, rfl⟩ := List.mem_map.mp hmem
    exact hnone value ((h key value).mpr hentry)
  · exact fun habsent value hsome =>
      habsent (List.mem_map.mpr ⟨_, (h key value).mp hsome, rfl⟩)

/-- A list of entries has one mirror. -/
theorem Reads.unique {m m' : Mirror K V} {l : List (Entry K V)} (h : Reads m l)
    (h' : Reads m' l) : m = m' := by
  funext key
  refine Option.ext fun value => ?_
  rw [h key value, h' key value]

end Mirror

open Mirror

section Follow

variable [DecidableEq K]

/-- Notices that lead from one list of entries to another. -/
def Follows (lost : K → V → Prop) (before : List (Entry K V)) (notices : List (Notice K V))
    (after : List (Entry K V)) : Prop :=
  ∀ m, Reads m before → ∃ m', Replays lost m notices m' ∧ Reads m' after

namespace Follows

variable {lost lost' : K → V → Prop} {l l' before after : List (Entry K V)}
  {notices notices' : List (Notice K V)}

/-- Nothing is announced of a change of order. -/
theorem silent (h : before ~ after) : Follows lost before [] after :=
  fun m hm => ⟨m, .nil m, hm.perm h⟩

/-- Notices after notices. -/
theorem trans (h : Follows lost before notices l) (h' : Follows lost l notices' after) :
    Follows lost before (notices ++ notices') after := by
  intro m hm
  obtain ⟨m₁, hreplays₁, hm₁⟩ := h m hm
  obtain ⟨m₂, hreplays₂, hm₂⟩ := h' m₁ hm₁
  exact ⟨m₂, hreplays₁.append hreplays₂, hm₂⟩

/-- The order of the lists does not matter. -/
theorem perm (h : Follows lost before notices after) (hbefore : l ~ before) (hafter : after ~ l') :
    Follows lost l notices l' := by
  intro m hm
  obtain ⟨m', hreplays, hm'⟩ := h m (hm.perm hbefore)
  exact ⟨m', hreplays, hm'.perm hafter⟩

/-- It does no harm if more may expire. -/
theorem mono (h : Follows lost before notices after)
    (hlost : ∀ key value, lost key value → lost' key value) :
    Follows lost' before notices after := by
  intro m hm
  obtain ⟨m', hreplays, hm'⟩ := h m hm
  exact ⟨m', hreplays.mono hlost, hm'⟩

/-- An entry that is alone with its key can be crossed out. -/
theorem reads_strike {m : Mirror K V} {key : K} {value : Option V}
    (h : Reads m ((some key, value) :: l)) (alone : some key ∉ l.map Prod.fst) :
    m key = some value ∧ Reads (m.strike key) l := by
  refine ⟨(h key value).mpr List.mem_cons_self, fun other content => ?_⟩
  by_cases hother : other = key
  · subst hother
    have habsent : (some other, content) ∉ l := fun hmem =>
      alone (List.mem_map.mpr ⟨_, hmem, rfl⟩)
    simp [strike, habsent]
  · have hne : (some other, content) ≠ (some key, value) := by
      intro heq
      cases heq
      exact hother rfl
    rw [strike, Function.update_of_ne hother, h, List.mem_cons, or_iff_right hne]

/-- An entry of a key that had none can be put down. -/
theorem reads_enter {m : Mirror K V} (h : Reads m l) {key : K}
    (absent : some key ∉ l.map Prod.fst) (value : Option V) :
    Reads (m.enter key value) ((some key, value) :: l) := by
  intro other content
  by_cases hother : other = key
  · subst hother
    have habsent : (some other, content) ∉ l := fun hmem =>
      absent (List.mem_map.mpr ⟨_, hmem, rfl⟩)
    simp [enter, habsent, eq_comm]
  · have hne : (some other, content) ≠ (some key, value) := by
      intro heq
      cases heq
      exact hother rfl
    rw [enter, Function.update_of_ne hother, h, List.mem_cons, or_iff_right hne]

/-- An entry is announced as added. -/
theorem added {key : K} {value : Option V} (absent : some key ∉ l.map Prod.fst) :
    Follows lost l [.added key value] ((some key, value) :: l) :=
  fun m hm => ⟨m.enter key value, .added (hm.eq_none_iff.mpr absent) (.nil _),
    reads_enter hm absent value⟩

/-- An entry is announced as removed. -/
theorem removed {key : K} {value : Option V} (alone : some key ∉ l.map Prod.fst) :
    Follows lost ((some key, value) :: l) [.removed key value false] l := by
  intro m hm
  obtain ⟨hkey, hrest⟩ := reads_strike hm alone
  exact ⟨m.strike key, .removed hkey (.nil _), hrest⟩

/-- An entry is announced as expired. -/
theorem expired {key : K} {value : V} (hlost : lost key value) (alone : some key ∉ l.map Prod.fst) :
    Follows lost ((some key, some value) :: l) [.removed key none true] l := by
  intro m hm
  obtain ⟨hkey, hrest⟩ := reads_strike hm alone
  exact ⟨m.strike key, .expired hkey hlost (.nil _), hrest⟩

/-! ## Departures -/

/-- What a soft tier announces of a slot that departs: a removal if it is live, and an expiration of
a key that has lost its value otherwise. -/
theorem departure {d : Departure K V} {key : K} {value : V} (hkey : d.slot.key = .strong key)
    (hvalue : d.slot.value.content = some value) (hlost : d.expired = true → lost key value)
    (alone : some key ∉ l.map Prod.fst) :
    Follows lost (d.slot.content :: l) ([d.notice].filterMap ofSoft) l := by
  have hcontent : d.slot.content = (some key, some value) := by
    rw [Slot.content, hkey, hvalue]
    rfl
  rw [hcontent]
  cases hexpired : d.expired with
  | true =>
    have hnotice : d.notice = .valueExpired (some key) := by
      rw [Departure.notice, if_pos hexpired, Slot.expiration, hkey]
      rfl
    rw [hnotice]
    exact expired (hlost hexpired) alone
  | false =>
    have hnotice : d.notice = .overflow (some key, some value) := by
      rw [Departure.notice, hexpired, if_neg Bool.false_ne_true,
        Slot.entry_eq_content hexpired, hcontent]
    rw [hnotice]
    exact removed alone

/-- What a soft tier announces of all slots that depart. -/
theorem departures {departed : List (Departure K V)}
    (hslots : ∀ d ∈ departed, ∃ key value, d.slot.key = .strong key ∧
      d.slot.value.content = some value ∧ (d.expired = true → lost key value))
    (distinct : ((departed.map (·.slot.content) ++ l).map Prod.fst).Nodup) :
    Follows lost (departed.map (·.slot.content) ++ l)
      ((departed.map (·.notice)).filterMap ofSoft) l := by
  -- By induction on the slots that depart, each of which is alone with its key.
  induction departed with
  | nil => exact silent .rfl
  | cons d rest ih =>
    obtain ⟨key, value, hkey, hvalue, hlost⟩ := hslots d List.mem_cons_self
    rw [List.map_cons, List.cons_append, List.map_cons, List.nodup_cons] at distinct
    have hfst : d.slot.content.1 = some key := by
      rw [Slot.content, hkey]
      rfl
    rw [hfst] at distinct
    have hfirst := departure hkey hvalue hlost distinct.1
    have hrest := ih (fun d hd => hslots d (List.mem_cons_of_mem _ hd)) distinct.2
    have hnotices : ((d :: rest).map (·.notice)).filterMap ofSoft =
        [d.notice].filterMap ofSoft ++ (rest.map (·.notice)).filterMap ofSoft := by
      rw [← List.filterMap_append]
      rfl
    rw [hnotices]
    exact hfirst.trans hrest

/-- Entries are announced as removed, one after the other. -/
theorem removedAll {gone : List (Entry K V)} (named : ∀ entry ∈ gone, entry.1 ≠ none)
    (distinct : ((gone ++ l).map Prod.fst).Nodup) :
    Follows lost (gone ++ l) (removals gone) l := by
  induction gone with
  | nil => exact silent .rfl
  | cons entry rest ih =>
    obtain ⟨key, hkey⟩ := Option.ne_none_iff_exists'.mp (named entry List.mem_cons_self)
    obtain ⟨_, value⟩ := entry
    cases hkey
    rw [List.cons_append, List.map_cons, List.nodup_cons] at distinct
    have hrest := ih (fun entry hentry => named entry (List.mem_cons_of_mem _ hentry)) distinct.2
    exact (removed distinct.1).trans hrest

end Follows

end Follow

end SoftCache.Cache
