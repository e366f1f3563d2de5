import StatelessGuest.Evm.Ordinary
import StatelessGuest.State.Quiet

/-!
# Instructions that stay in their frame

`Local c c'` is what the ordinary instructions and TSTORE do: they change no account, no slot and
no state gas.
-/

namespace StatelessGuest

open Lib

/-- An ordinary step, or a write of the transient storage. -/
structure Local (c c' : Ctx) : Prop where
  tk : Quiet c.tk c'.tk
  ev : FrameLocal c.ev c'.ev

instance : Ordinary Local where
  refl c := ⟨refl_of Quiet c.tk, .refl c.ev⟩
  trans _ _ _ h h' := ⟨trans_of Quiet h.tk h'.tk, h.ev.trans h'.ev⟩
  frame c _ h := ⟨refl_of Quiet c.tk, h⟩
  read c _ h := ⟨.of_readOnly h, .refl c.ev⟩
  warmAddress c _ := ⟨refl_of Quiet c.tk, .refl c.ev⟩
  warmStorageKey c _ := ⟨refl_of Quiet c.tk, .refl c.ev⟩

instance (addr : Address) (key : Hash) (value : U256) :
    Keeps Local (liftState (setTransientStorage addr key value)) :=
  keeps_liftState (T := Quiet) (fun c _ h => ⟨h, .refl c.ev⟩) _

-- seven steps, each an instance that goes through `Still`
set_option synthInstance.maxSize 1000 in
instance : Keeps Local opTstore := by
  unfold opTstore
  infer_instance

end StatelessGuest
