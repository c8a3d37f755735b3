import LiveTemplate.Proofs.Library.Meaning
import Mathlib.Data.Set.Finite.List
import Mathlib.Logic.Relation
import Mathlib.Order.Preorder.Finite
import Mathlib.Order.WellFounded

/-!
# LiveTemplate.Proofs.Library.Chains

Chains of partials that ask for one another.

Every partial of a chain is registered, and there are finitely many names.  So an endless
chain comes back to a name, and where no partial reaches itself there is none
(`Acyclic.settled`).  Scopes do not count here: a partial may be rendered in any number of
scopes.
-/

namespace LiveTemplate

namespace Library

variable {lib : Library} {heap : Heap} {scope : Scope} {nodes : List Node}

/-- Of the partials that nodes ask for, be it through others, none reaches itself. -/
def Acyclic (lib : Library) (heap : Heap) (scope : Scope) (nodes : List Node) : Prop :=
  ∀ first ∈ lib.nodesRequests heap scope nodes, ∀ r,
    Relation.ReflTransGen (lib.AskedBy heap) r first →
      ∀ scope', ¬Relation.TransGen (lib.AskedBy heap) (r.1, scope') r

/-- What comes later in a chain is asked for by what comes earlier. -/
theorem transGen_of_chain {chain : Nat → Request}
    (h : ∀ n, lib.AskedBy heap (chain (n + 1)) (chain n)) {m n : Nat} (hlt : m < n) :
    Relation.TransGen (lib.AskedBy heap) (chain n) (chain m) := by
  induction n, hlt using Nat.le_induction with
  | base => exact .single (h m)
  | succ n _ ih => exact .head (h n) ih

/-- A partial that is found is registered. -/
theorem mem_entries_of_get? {name : String} {t : Template}
    (ht : lib.partials.get? name = some t) : (name, t) ∈ lib.partials.entries := by
  obtain ⟨before, after, hentries, -⟩ := List.lookup_eq_some_iff.1 ht
  rw [hentries]
  exact List.mem_append_right _ List.mem_cons_self

/-- Only registered partials ask for others. -/
theorem AskedBy.mem_keys {r r' : Request} (h : lib.AskedBy heap r' r) :
    r.1 ∈ lib.partials.keys := by
  obtain ⟨t, ht, -⟩ := h
  exact List.mem_map.2 ⟨_, mem_entries_of_get? ht, rfl⟩

/-- Where no partial reaches itself, no chain of partials is endless. -/
theorem Acyclic.settled (h : lib.Acyclic heap scope nodes) : lib.Settled heap scope nodes := by
  intro first hfirst
  by_contra hendless
  obtain ⟨chain, rfl, hchain⟩ := not_acc_iff_exists_descending_chain.1 hendless
  -- Two of the partials in the chain have the same name.
  obtain ⟨m, n, hlt, hname⟩ := Set.Finite.exists_lt_map_eq_of_forall_mem
    (f := fun k => (chain k).1) (fun k => (hchain k).mem_keys) (List.finite_toSet _)
  have hbefore : Relation.ReflTransGen (lib.AskedBy heap) (chain m) (chain 0) := by
    rcases Nat.eq_zero_or_pos m with rfl | hpos
    · exact .refl
    · exact (transGen_of_chain hchain hpos).to_reflTransGen
  refine h _ hfirst _ hbefore (chain n).2 ?_
  have hname : (chain m).1 = (chain n).1 := hname
  rw [hname]
  exact transGen_of_chain hchain hlt

/-- Where partials only ask for partials of a lower rank, none reaches itself. -/
theorem acyclic_of_rank (rank : String → Nat)
    (h : ∀ r r', lib.AskedBy heap r' r → rank r'.1 < rank r.1) : lib.Acyclic heap scope nodes := by
  intro first _ r _ scope' hreaches
  have hlt : ∀ r', Relation.TransGen (lib.AskedBy heap) r' r → rank r'.1 < rank r.1 := by
    intro r' hreaches
    induction hreaches using Relation.TransGen.head_induction_on with
    | single hasked => exact h _ _ hasked
    | head hasked _ ih => exact (h _ _ hasked).trans ih
  exact Nat.lt_irrefl (rank r.1) (hlt (r.1, scope') hreaches)

end Library

end LiveTemplate
