import StatelessGuest.Evm.Upkeep

/-!
# What runs do to the accessed sets

Within a frame and its children the accessed addresses and slots are only added to, at the end,
so the counts of a frame mark what its caller had.
-/

namespace StatelessGuest

open Lib

/-! ## The sets of a context -/

/-- The accessed addresses and slots. -/
structure Sets where
  addrs : OrdMap Address Unit
  keys : OrdMap (Address × Hash) Unit

def Ctx.sets (c : Ctx) : Sets := ⟨c.accAddrs, c.accKeys⟩

def Ctx.withSets (c : Ctx) (s : Sets) : Ctx := { c with accAddrs := s.addrs, accKeys := s.keys }

/-- Sets that grew. -/
def Sets.Le (s t : Sets) : Prop := s.addrs.Le t.addrs ∧ s.keys.Le t.keys

theorem Sets.Le.refl (s : Sets) : s.Le s := ⟨.refl _, .refl _⟩

theorem Sets.Le.trans {s t u : Sets} (h : s.Le t) (h' : t.Le u) : s.Le u :=
  ⟨h.1.trans h'.1, h.2.trans h'.2⟩

/-- The elements of both. -/
def Sets.merge (s t : Sets) : Sets := ⟨htabUnionInto s.addrs t.addrs, htabUnionInto s.keys t.keys⟩

theorem htabUnionInto_of_le {κ : Type} [DecidableEq κ] {m n : OrdMap κ Unit} (h : m.Le n) :
    htabUnionInto m n = n := by
  obtain ⟨rest, hrest⟩ := h
  have hmem : ∀ e ∈ m.entries, e.1 ∈ m.keys := fun e he => List.mem_map_of_mem he
  apply OrdMap.ext
  rw [htabUnionInto, ← hrest, List.foldl_append, OrdMap.foldl_set_of_mem _ hmem]
  apply OrdMap.entries_foldl_set
  rw [hrest]
  exact n.nodup

theorem Sets.merge_of_le {s t : Sets} (h : s.Le t) : s.merge t = t := by
  rw [Sets.merge, htabUnionInto_of_le h.1, htabUnionInto_of_le h.2]

/-! ## What runs do to them -/

-- an instruction of fifteen steps needs more instances than the default allows
set_option synthInstance.maxSize 1000

/-- The sets grow, and the counts of the frame stay. -/
structure Grown (c c' : Ctx) : Prop where
  sets : c.sets.Le c'.sets
  addrsN : c'.ev.accAddrsN = c.ev.accAddrsN
  keysN : c'.ev.accKeysN = c.ev.accKeysN

theorem Grown.of_ev {c : Ctx} {e : Frame} (ha : e.accAddrsN = c.ev.accAddrsN)
    (hk : e.accKeysN = c.ev.accKeysN) : Grown c { c with ev := e } := ⟨.refl _, ha, hk⟩

theorem grown_modifyEv {f : Frame → Frame} (ha : ∀ e, (f e).accAddrsN = e.accAddrsN)
    (hk : ∀ e, (f e).accKeysN = e.accKeysN) : Keeps Grown (modifyEv f) :=
  Keeps.modify fun c => .of_ev (ha c.ev) (hk c.ev)

instance : Ordinary Grown where
  refl c := ⟨.refl _, rfl, rfl⟩
  trans _ _ _ h h' := ⟨h.sets.trans h'.sets, h'.addrsN.trans h.addrsN, h'.keysN.trans h.keysN⟩
  frame c e h := by
    have hcore := h.core
    simp only [Frame.core, FrameCore.mk.injEq] at hcore
    obtain ⟨-, -, -, -, -, -, ha, hk, -⟩ := hcore
    exact .of_ev ha hk
  read c _ _ := ⟨.refl _, rfl, rfl⟩
  warmAddress c addr := ⟨⟨OrdMap.le_set _ _, .refl _⟩, rfl, rfl⟩
  warmStorageKey c k := ⟨⟨.refl _, OrdMap.le_set _ _⟩, rfl, rfl⟩

instance : Upkeep Grown where
  tracker c _ := ⟨.refl _, rfl, rfl⟩
  chargeStateGas amount := by
    refine ⟨fun c => ?_⟩
    rw [chargeStateGas_run]
    split
    · exact .of_ev rfl rfl
    · split <;> exact ⟨.refl _, rfl, rfl⟩
  creditStateGas _ := grown_modifyEv (fun _ => rfl) fun _ => rfl
  refund c _ := .of_ev rfl rfl
  slotWrites c _ := .of_ev rfl rfl
  takeStateGas c := .of_ev rfl rfl
  refill c := .of_ev rfl rfl
  halt _ := grown_modifyEv (fun _ => rfl) fun _ => rfl
  error c _ := .of_ev rfl rfl
  msg c _ := .of_ev rfl rfl

instance : Keeps Grown rebaseReservoir := grown_modifyEv (fun _ => rfl) fun _ => rfl

section

variable [Keccak] {w : Witness}

instance : Keeps Grown takeCreateGas :=
  Keeps.seq inferInstance fun _ => Keeps.seq (grown_modifyEv (fun _ => rfl) fun _ => rfl)
    fun _ => inferInstance

instance (sender : Address) (createGas : Word) (charged : Bool) :
    Keeps Grown (createCollision w sender createGas charged) :=
  Keeps.seq inferInstance fun _ => Keeps.seq (grown_modifyEv (fun _ => rfl) fun _ => rfl)
    fun _ => inferInstance

instance (started : Option ChildReq) : Keeps Grown (pcAddIfDone started) := by
  unfold pcAddIfDone
  infer_instance

instance (endowment : U256) (contract : Address) (mstart msize : Word) :
    Keeps Grown (genericCreate w endowment contract mstart msize) := by
  unfold genericCreate
  dsimp only
  split
  case' isTrue => refine Keeps.seq inferInstance fun _ => ?_
  all_goals
    iterate 4 refine Keeps.seq inferInstance fun _ => ?_
    split <;> infer_instance

instance : Keeps Grown (opCreate w) := by
  unfold opCreate
  dsimp only
  iterate 6 refine Keeps.seq inferInstance fun _ => ?_
  infer_instance

instance : Keeps Grown (opCreate2 w) := by
  unfold opCreate2
  dsimp only
  iterate 6 refine Keeps.seq inferInstance fun _ => ?_
  infer_instance

instance (gas reservoir : Word) : Keeps Grown (returnCallGas gas reservoir) :=
  grown_modifyEv (fun _ => rfl) fun _ => rfl

instance (gas reservoir : Word) (charged : Bool) :
    Keeps Grown (callUnpaid gas reservoir charged) := by
  unfold callUnpaid
  infer_instance

instance (gas reservoir : Word) (value : U256) (caller dst codeAddress : Address)
    (transfer isStatic : Bool) (r : CallRanges) (code : Bytes) (disablePre charged : Bool) :
    Keeps Grown (genericCall gas reservoir value caller dst codeAddress transfer isStatic r code
      disablePre charged) := by
  unfold genericCall
  refine Keeps.seq inferInstance fun _ => Keeps.seq inferInstance fun _ => ?_
  split <;> infer_instance

instance (value gas : U256) (expandBy : Word) : Keeps Grown (splitCallGas value gas expandBy) := by
  unfold splitCallGas
  dsimp only
  iterate 2 refine Keeps.seq inferInstance fun _ => ?_
  exact Keeps.seq (grown_modifyEv (fun _ => rfl) fun _ => rfl) fun _ => inferInstance

instance : Keeps Grown (opCall w) := by
  unfold opCall
  dsimp only
  iterate 5 refine Keeps.seq inferInstance fun _ => ?_
  split
  case' isTrue => refine Keeps.seq inferInstance fun _ => ?_
  all_goals
    iterate 3 refine Keeps.seq inferInstance fun _ => ?_
    infer_instance

instance : Keeps Grown (opCallcode w) := by
  unfold opCallcode
  dsimp only
  iterate 6 refine Keeps.seq inferInstance fun _ => ?_
  infer_instance

instance : Keeps Grown (opDelegatecall w) := by
  unfold opDelegatecall
  infer_instance

instance : Keeps Grown (opStaticcall w) := by
  unfold opStaticcall
  infer_instance

/-- No instruction takes anything out of the sets. -/
instance (op : Nat) : Keeps Grown (opDispatch w op) :=
  have hplain : ∀ x, Keeps Grown x → Keeps Grown (plain x) := fun _ hx =>
    Keeps.seq hx fun _ => inferInstance
  opDispatch_forall w (fun x hx => hplain x hx.keeps)
    (hplain _ (by unfold opTstore; infer_instance)) (hplain _ inferInstance)
    (hplain _ inferInstance) inferInstance inferInstance inferInstance inferInstance inferInstance
    inferInstance inferInstance op

end

end StatelessGuest
