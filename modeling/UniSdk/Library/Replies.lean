/-!
# Machines that reply

A machine takes a request and gives a reply. Two machines whose states stay related and whose
replies agree, request by request, give the same replies to every sequence of requests.
-/

namespace UniSdk.Library.Replies

universe u v w x

variable {σ : Type u} {τ : Type v} {α : Type w} {ρ : Type x}

/-- The replies to a sequence of requests, and the state at its end. -/
def replies (f : σ → α → ρ × σ) (s : σ) : List α → List ρ × σ
  | [] => ([], s)
  | a :: requests =>
    let r := f s a
    let rest := replies f r.2 requests
    (r.1 :: rest.1, rest.2)

variable {f : σ → α → ρ × σ} {g : τ → α → ρ × τ}

theorem replies_cons (s : σ) (a : α) (requests : List α) :
    replies f s (a :: requests) =
      ((f s a).1 :: (replies f (f s a).2 requests).1, (replies f (f s a).2 requests).2) := rfl

/-- The machines reply alike as long as each request keeps their states related. -/
theorem replies_simulate {R : σ → τ → Prop} {ok : α → Prop}
    (hstep : ∀ s t a, R s t → ok a → (f s a).1 = (g t a).1 ∧ R (f s a).2 (g t a).2)
    {requests : List α} (hok : ∀ a ∈ requests, ok a) {s : σ} {t : τ} (hs : R s t) :
    (replies f s requests).1 = (replies g t requests).1 ∧
      R (replies f s requests).2 (replies g t requests).2 := by
  induction requests generalizing s t with
  | nil => exact ⟨rfl, hs⟩
  | cons a requests ih =>
    obtain ⟨hreply, hnext⟩ := hstep s t a hs (hok a List.mem_cons_self)
    obtain ⟨hrest, hend⟩ := ih (fun b hb => hok b (List.mem_cons_of_mem a hb)) hnext
    rw [replies_cons, replies_cons, hreply, hrest]
    exact ⟨rfl, hend⟩

end UniSdk.Library.Replies
