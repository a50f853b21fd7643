import Lipi.Proofs.Machine.Watch
import Mathlib.Data.List.Nodup

set_option autoImplicit false

/-! # The history of a run

What has happened in a run, as a list of events, and what the run remembers of its modules go
together (`Modules.Agree`): no module has been read or started twice, and the modules that are kept
with their exports are ones that have finished. **This is kept by every step that touches the
modules**, of which there are four: reading a module, starting it, ending it well, and ending it
with an error.

After an error nothing is read or started any more. So the history has to show which modules may
still be read only as long as nothing has failed (`Modules.Current`).
-/

namespace Lipi

/-! ## Events and modules -/

/-- What has happened goes with what a run remembers of its modules. -/
structure Modules.Agree (past : List Event) (ms : Modules) : Prop where
  loading_nodup : ms.loading.Nodup
  loading_fresh : ∀ id ∈ ms.loading, ms.cached? id = none
  read_once : (past.filterMap Event.readId?).Nodup
  started_once : (past.filterMap Event.startedId?).Nodup
  finished : ∀ id exports, ms.cached? id = some exports → .finished id exports ∈ past
  kept : ∀ m id exports, .moment m ∈ past → m.modules.cached? id = some exports →
    ms.cached? id = some exports

/-- While nothing has failed, every module that has been read or started is being loaded, or has
been run. -/
structure Modules.Current (past : List Event) (ms : Modules) : Prop extends ms.Agree past where
  known : ∀ id, .read id ∈ past ∨ .started id ∈ past → id ∈ ms.loading ∨ ms.cached? id ≠ none

theorem filterMap_concat {α β : Type} (f : α → Option β) (l : List α) (a : α) :
    (l ++ [a]).filterMap f = l.filterMap f ++ (f a).toList := by
  rw [List.filterMap_append]
  cases h : f a <;> simp [h]

namespace Event

theorem readId?_eq_some {event : Event} {id : ModuleId} :
    event.readId? = some id ↔ event = .read id := by
  cases event <;> simp [readId?]

theorem startedId?_eq_some {event : Event} {id : ModuleId} :
    event.startedId? = some id ↔ event = .started id := by
  cases event <;> simp [startedId?]

/-! A note is made of one kind of events, those that `make` makes. -/

section Notes

variable {note : Event → Option ModuleId} {make : ModuleId → Event}
  (hnote : ∀ {event id}, note event = some id ↔ event = make id) {past : List Event}
include hnote

theorem mem_notes {id : ModuleId} : id ∈ past.filterMap note ↔ make id ∈ past := by
  rw [List.mem_filterMap]
  constructor
  · rintro ⟨event, hmem, hid⟩
    rwa [← hnote.mp hid]
  · intro h
    exact ⟨_, h, hnote.mpr rfl⟩

/-- Notes stay free of repetitions if one more event of the kind is new. -/
theorem nodup_concat {event : Event} (h : (past.filterMap note).Nodup)
    (hnew : ∀ id, event = make id → make id ∉ past) :
    ((past ++ [event]).filterMap note).Nodup := by
  rw [filterMap_concat]
  cases hevent : note event with
  | none => simpa using h
  | some id =>
      show (past.filterMap note ++ [id]).Nodup
      rw [← List.concat_eq_append]
      refine h.concat fun hmem => ?_
      exact hnew id (hnote.mp hevent) ((mem_notes hnote).mp hmem)

end Notes

end Event

namespace Modules

variable {past : List Event} {ms : Modules} {id : ModuleId}

theorem current_fresh (loader : Loader) : (fresh loader).Current [] where
  loading_nodup := List.nodup_nil
  loading_fresh _ hid := by cases hid
  read_once := List.nodup_nil
  started_once := List.nodup_nil
  finished _ _ hid := by cases hid
  kept _ _ _ hmem := by cases hmem
  known _ hid := by simp at hid

/-! ## One more event -/

theorem Agree.concat (h : ms.Agree past) {event : Event}
    (hread : ∀ id, event = .read id → .read id ∉ past)
    (hstarted : ∀ id, event = .started id → .started id ∉ past)
    (hmoment : ∀ m, event = .moment m → m.modules = ms) : ms.Agree (past ++ [event]) where
  loading_nodup := h.loading_nodup
  loading_fresh := h.loading_fresh
  read_once := Event.nodup_concat Event.readId?_eq_some h.read_once hread
  started_once := Event.nodup_concat Event.startedId?_eq_some h.started_once hstarted
  finished id exports hid := List.mem_append_left _ (h.finished id exports hid)
  kept m id exports hmem hid := by
    rcases List.mem_append.mp hmem with hmem | hmem
    · exact h.kept m id exports hmem hid
    · rwa [hmoment m (List.mem_singleton.mp hmem).symm] at hid

/-- An event that is neither the reading nor the start of a module leaves the run current. -/
theorem Current.concat (h : ms.Current past) {event : Event} (hread : event.readId? = none)
    (hstarted : event.startedId? = none) (hmoment : ∀ m, event = .moment m → m.modules = ms) :
    ms.Current (past ++ [event]) where
  toAgree := by
    refine h.toAgree.concat (fun id hid => ?_) (fun id hid => ?_) hmoment
    · rw [hid] at hread
      cases hread
    · rw [hid] at hstarted
      cases hstarted
  known id hid := by
    refine h.known id ?_
    rw [List.mem_append, List.mem_append, List.mem_singleton, List.mem_singleton] at hid
    rcases hid with (hid | hid) | (hid | hid)
    · exact Or.inl hid
    · rw [← hid] at hread
      cases hread
    · exact Or.inr hid
    · rw [← hid] at hstarted
      cases hstarted

theorem Agree.moment (h : ms.Agree past) {m : Machine} (hm : m.modules = ms) :
    ms.Agree (past ++ [.moment m]) := by
  refine h.concat (fun _ hid => by cases hid) (fun _ hid => by cases hid) fun m' hm' => ?_
  cases hm'
  exact hm

theorem Current.moment (h : ms.Current past) {m : Machine} (hm : m.modules = ms) :
    ms.Current (past ++ [.moment m]) := by
  refine h.concat rfl rfl fun m' hm' => ?_
  cases hm'
  exact hm

theorem Current.printed (h : ms.Current past) (line : String) :
    ms.Current (past ++ [.printed line]) :=
  h.concat rfl rfl fun _ hm => by cases hm

/-! ## Reading, starting and ending a module -/

/-- A module that has not been run and is not being loaded has not been read or started. -/
theorem Current.unknown (h : ms.Current past) (hcached : ms.cached? id = none)
    (hloading : id ∉ ms.loading) : .read id ∉ past ∧ .started id ∉ past := by
  have hnot : ¬ (.read id ∈ past ∨ .started id ∈ past) := by
    intro hpast
    rcases h.known id hpast with hmem | hsome
    · exact hloading hmem
    · exact hsome hcached
  exact not_or.mp hnot

/-- Reading a module. Until it starts it is not among those that are being loaded, so that the run is
not current. -/
theorem Current.read (h : ms.Current past) (hcached : ms.cached? id = none)
    (hloading : id ∉ ms.loading) : ms.Agree (past ++ [.read id]) := by
  refine h.toAgree.concat (fun other hother => ?_) (fun _ hid => by cases hid)
    fun _ hm => by cases hm
  cases hother
  exact (h.unknown hcached hloading).1

theorem Agree.enter (h : ms.Agree past) (hcached : ms.cached? id = none)
    (hloading : id ∉ ms.loading) : (ms.enter id).Agree past where
  loading_nodup := by
    show (ms.loading ++ [id]).Nodup
    rw [← List.concat_eq_append]
    exact h.loading_nodup.concat hloading
  loading_fresh other hother := by
    rcases List.mem_append.mp hother with hother | hother
    · exact h.loading_fresh other hother
    · rw [List.mem_singleton.mp hother]
      exact hcached
  read_once := h.read_once
  started_once := h.started_once
  finished := h.finished
  kept := h.kept

/-- Starting the script. -/
theorem current_script (loader : Loader) (id : ModuleId) :
    ((fresh loader).enter id).Current [.started id] where
  toAgree := by
    have hstarted : (fresh loader).Agree ([] ++ [.started id]) :=
      (current_fresh loader).toAgree.concat (fun _ h => by cases h) (fun _ _ h => by cases h)
        fun _ h => by cases h
    exact hstarted.enter rfl fun h => by cases h
  known other hother := by
    left
    simpa [enter, fresh] using hother

/-- Starting a module that has been read. -/
theorem Current.start (h : ms.Current past) (hcached : ms.cached? id = none)
    (hloading : id ∉ ms.loading) : (ms.enter id).Current (past ++ [.read id] ++ [.started id]) where
  toAgree := by
    refine Agree.enter ?_ hcached hloading
    refine (h.read hcached hloading).concat (fun _ hid => by cases hid) (fun other hother => ?_)
      fun _ hm => by cases hm
    cases hother
    have hnew := (h.unknown hcached hloading).2
    simpa using hnew
  known other hother := by
    by_cases hid : other = id
    · left
      rw [hid]
      exact List.mem_append_right _ List.mem_cons_self
    · rcases h.known other (by simpa [hid] using hother) with hmem | hsome
      · exact Or.inl (List.mem_append_left _ hmem)
      · exact Or.inr hsome

/-- Ending a module with an error. -/
theorem Agree.leave (h : ms.Agree past) (id : ModuleId) : (ms.leave id).Agree past where
  loading_nodup := h.loading_nodup.filter _
  loading_fresh other hother := h.loading_fresh other (List.mem_of_mem_filter hother)
  read_once := h.read_once
  started_once := h.started_once
  finished := h.finished
  kept := h.kept

theorem cached?_store (ms : Modules) (id : ModuleId) (exports : Exports) (other : ModuleId) :
    (ms.store id exports).cached? other =
      if id = other then some exports else ms.cached? other :=
  Dict.get?_insert ms.cache id other exports

/-- Keeping the exports of a module that has finished and is no longer being loaded. -/
theorem Agree.store (h : ms.Agree past) (hnone : ms.cached? id = none) (hloading : id ∉ ms.loading)
    {exports : Exports} (hfinished : .finished id exports ∈ past) :
    (ms.store id exports).Agree past where
  loading_nodup := h.loading_nodup
  loading_fresh other hother := by
    have hne : id ≠ other := fun heq => hloading (heq ▸ hother)
    rw [cached?_store, if_neg hne]
    exact h.loading_fresh other hother
  read_once := h.read_once
  started_once := h.started_once
  finished other found hother := by
    rw [cached?_store] at hother
    by_cases heq : id = other
    · rw [if_pos heq] at hother
      cases hother
      exact heq ▸ hfinished
    · rw [if_neg heq] at hother
      exact h.finished other found hother
  kept m other found hmem hother := by
    have hkept := h.kept m other found hmem hother
    -- the module itself was not kept at any moment before
    have hne : id ≠ other := fun heq => by
      rw [← heq, hnone] at hkept
      cases hkept
    rw [cached?_store, if_neg hne]
    exact hkept

theorem mem_loading_leave {other : ModuleId} :
    other ∈ (ms.leave id).loading ↔ other ∈ ms.loading ∧ other ≠ id := by
  show other ∈ ms.loading.filter (· != id) ↔ _
  rw [List.mem_filter, bne_iff_ne]

/-- Ending a module well. -/
theorem Current.finish (h : ms.Current past) (hid : id ∈ ms.loading) (exports : Exports) :
    ((ms.leave id).store id exports).Current (past ++ [.finished id exports]) where
  toAgree := by
    have hpast : ms.Current (past ++ [.finished id exports]) :=
      h.concat rfl rfl fun _ hm => by cases hm
    refine (hpast.toAgree.leave id).store (h.loading_fresh id hid) (fun hmem => ?_)
      (List.mem_append_right _ List.mem_cons_self)
    exact (mem_loading_leave.mp hmem).2 rfl
  known other hother := by
    rw [cached?_store]
    by_cases heq : id = other
    · right
      rw [if_pos heq]
      exact Option.some_ne_none exports
    · rw [if_neg heq]
      rcases h.known other (by simpa using hother) with hmem | hsome
      · exact Or.inl (mem_loading_leave.mpr ⟨hmem, Ne.symm heq⟩)
      · exact Or.inr hsome

end Modules

end Lipi
