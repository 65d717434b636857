import Mathlib.Tactic

/-!
# Requests and replies

A server answers a request with a reply and goes on in a new state; where the request has no
answer the server is stuck.  One server simulates another one if it gives the same replies
wherever the other one has any, and this follows from single requests.
-/

variable {ε ρ σ τ : Type*}

namespace Replies

/-- The replies to some requests, one after the other. -/
def run (step : ε → σ → Option (ρ × σ)) : List ε → σ → Option (List ρ × σ)
  | [], s => some ([], s)
  | e :: requests, s =>
      (step e s).bind fun (r, s) => (run step requests s).map fun (rs, s) => (r :: rs, s)

/-- If each reply is the same and related states stay related, so are all replies. -/
theorem run_simulates {spec : ε → τ → Option (ρ × τ)} {impl : ε → σ → Option (ρ × σ)}
    {R : τ → σ → Prop} {P : ε → Prop}
    (hstep : ∀ e a s r a', P e → R a s → spec e a = some (r, a') →
      ∃ s', impl e s = some (r, s') ∧ R a' s')
    {requests : List ε} (hP : ∀ e ∈ requests, P e) {a a' : τ} {s : σ} {replies : List ρ}
    (hR : R a s) (hrun : run spec requests a = some (replies, a')) :
    ∃ s', run impl requests s = some (replies, s') ∧ R a' s' := by
  induction requests generalizing a s replies with
  | nil =>
      cases hrun
      exact ⟨s, rfl, hR⟩
  | cons e requests ih =>
      obtain ⟨⟨r, a₁⟩, hspec, hrest⟩ := Option.bind_eq_some_iff.mp hrun
      obtain ⟨⟨rs, a₂⟩, hrun', heq⟩ := Option.map_eq_some_iff.mp hrest
      obtain ⟨rfl, rfl⟩ := Prod.mk.inj heq
      obtain ⟨s₁, himpl, hR₁⟩ := hstep e a s r a₁ (hP e List.mem_cons_self) hR hspec
      obtain ⟨s', hreplies, hR'⟩ := ih (fun x hx => hP x (List.mem_cons_of_mem _ hx)) hR₁ hrun'
      refine ⟨s', ?_, hR'⟩
      rw [run, himpl, Option.bind_some]
      dsimp only
      rw [hreplies]
      rfl

end Replies
