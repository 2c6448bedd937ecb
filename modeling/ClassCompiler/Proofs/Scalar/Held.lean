import ClassCompiler.Proofs.Machine.Defaults
import ClassCompiler.Proofs.Scalar.Typed

namespace ClassCompiler

def Scalar.value : Scalar → Value
  | .int v => .int v
  | .bool b => .ofBool b
  | .str s => .str s

/-- What a variable keeps: an object for a number or a truth value, a text as it is. -/
def Scalar.KeptAs (heap : Heap) : Scalar → Value → Prop
  | .int v, w => heap.get? w = some (.integer v)
  | .bool b, w => heap.get? w = some (.boolean b)
  | .str s, w => w = .str s

theorem Scalar.KeptAs.grows {h h' : Heap} (hg : h.Grows h') {x : Scalar} {v : Value} (hx : x.KeptAs h v) :
    x.KeptAs h' v := by
  cases x with
  | int a => exact hg v _ hx
  | bool b => exact hg v _ hx
  | str s => exact hx

/-- The slots of a call keep the values of the variables, each of the type of its variable. -/
structure Agrees (m : MethodDecl) (env : Env) (locals : Array Value) (heap : Heap) : Prop where
  typed : EnvTyped m env
  kept : ∀ n sym, m.symbol? n = some sym → ∃ v, locals[sym.slot]? = some v ∧ (env n).KeptAs heap v

namespace Agrees

variable {m : MethodDecl} {env : Env} {locals : Array Value} {heap heap' : Heap}

theorem grows (h : Agrees m env locals heap) (hg : heap.Grows heap') : Agrees m env locals heap' := by
  refine ⟨h.typed, fun n sym hs => ?_⟩
  obtain ⟨v, hv, hk⟩ := h.kept n sym hs
  exact ⟨v, hv, hk.grows hg⟩

theorem slot_lt (h : Agrees m env locals heap) {n : String} {sym : Symbol} (hs : m.symbol? n = some sym) :
    sym.slot < locals.size := by
  obtain ⟨v, hv, -⟩ := h.kept n sym hs
  exact (Array.getElem?_eq_some_iff.1 hv).1

theorem set (h : Agrees m env locals heap) {n : String} {sym : Symbol} (hs : m.symbol? n = some sym)
    {x : Scalar} {v : Value} (hk : x.KeptAs heap v) (ht : x.HasTy sym.type) :
    Agrees m (env.set n x) (locals.setIfInBounds sym.slot v) heap := by
  refine ⟨h.typed.set fun sym' hs' => ?_, fun k sym' hs' => ?_⟩
  · obtain rfl := Option.some.inj (hs.symm.trans hs')
    exact ht
  · by_cases hkn : k = n
    · subst hkn
      obtain rfl := Option.some.inj (hs.symm.trans hs')
      refine ⟨v, by simp [h.slot_lt hs], ?_⟩
      rwa [Env.set, if_pos rfl]
    · have hslot : sym.slot ≠ sym'.slot := fun he => hkn (MethodDecl.symbol?_slot_inj hs hs' he).symm
      obtain ⟨w, hw, hkept⟩ := h.kept k sym' hs'
      refine ⟨w, by rw [Array.getElem?_setIfInBounds_ne hslot, hw], ?_⟩
      rwa [Env.set, if_neg hkn]

end Agrees

end ClassCompiler
