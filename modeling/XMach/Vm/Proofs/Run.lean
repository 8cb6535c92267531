import XMach.Vm.Proofs.Fork

/-!
# Calls keep a map well formed

`vm_map_submap` does so only where the start of its range is mapped: otherwise it clips the entry
behind the gap at an address where that entry does not extend to.
-/

namespace XMach.Vm

open Region

variable {ok : VmMap → Risk → Prop} {m m' : VmMap}

theorem create_wellFormed {min max : ℕ} (h : max < 2 ^ 32) : WellFormed (vmMapCreate min max) :=
  ⟨ordered_nil, by simp [vmMapCreate], rfl, rfl, h⟩

/-- Each call keeps a map well formed. -/
theorem Call.wellFormed (h : Call ok m m') (hok : ∀ m c, ok m c → Careful m c) (hm : WellFormed m) :
    WellFormed m' := by
  cases h with
  | enter hpos hlt h => exact enter_wellFormed hm hpos hlt h
  | findEntry hpos hlt _ h => exact findEntry_wellFormed hm hpos hlt h
  | protect h => exact protect_wellFormed hm h
  | inherit h => exact inherit_wellFormed hm h
  | submap hlt hs h =>
    obtain ⟨hlo, hhi, hmapped⟩ := hok _ _ hs
    exact submap_wellFormed hm hlo hlt hhi hmapped h
  | delete h => exact delete_wellFormed hm h
  | remove h => exact delete_wellFormed hm h
  | copyout hc h => exact copyout_wellFormed hm hc h
  | copyoutObject hpos hlt h => exact enter_wellFormed hm hpos hlt h
  | copyoutPageListPlace hpos hlt h => exact copyoutPageListPlace_wellFormed hm hpos hlt h
  | @copyoutPageListAtOnce _ last =>
    obtain ⟨hc, hlen⟩ := clearMark_cuts last m.entries
    exact hm.congr hc hlen rfl rfl rfl rfl
  | copyoutPageListDone h => exact copyoutPageListDone_wellFormed hm h
  | simplify h => exact simplify_wellFormed hm h
  | clipStart hl hs => exact (recut_clipStart hl hs).wellFormed hm
  | clipEnd hl hs => exact (recut_clipEnd hl hs).wellFormed hm
  | forkNew _ h => exact (fork_wellFormed hm h).1
  | forkOld _ h => exact (fork_wellFormed hm h).2
  | forkShared hf he hs hp => exact absurd (hok _ _ hf _ he hs) hp

section Examples

/-- A map of sixteen pages with four pages entered behind a gap. -/
def gapMap : VmMap :=
  { vmMapCreate 0 65536 with
    entries := [(allocateRequest 16384 false).newEntry 0 16384 32768]
    hdr := ⟨1, 1⟩
    size := 16384
    hint := some 0 }

theorem enter_gapMap : vmMapEnter (vmMapCreate 0 65536) 16384 (allocateRequest 16384 false) false =
    some (.success 16384, gapMap) := by decide

end Examples

end XMach.Vm
