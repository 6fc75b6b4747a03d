import Mathlib.Logic.Function.Basic
import Metropolis.Proofs.Dialogue
import Metropolis.Proofs.Evaluation

/-!
# Chains that take turns

Chains that run at the same time share a model and its memory, and nothing else. In a turn a chain
asks the model its next question and goes on with the answer, up to the question after that or to
its end; a schedule says whose turn it is. What a chain asks next is what its fit asks when it is
run again on the answers so far. Running the chains one after another is one of the schedules.
-/

namespace Metropolis

variable {α σ ρ : Type}

/-! ## The next question -/

/-- The memory of a model that has its answers told, and the first question it had none for. -/
structure Dialogue (α : Type) where
  answers : List (Except ModelError α)
  question : Option (List α × Nat)

/-- The likelihood that reads off the answers. -/
def toldLikelihood : Likelihood α (Dialogue α) := fun θ subject d =>
  match d.answers with
  | [] => .error (.evaluation "no answer") { d with question := d.question <|> some (θ, subject) }
  | .ok value :: answers => .ok value { d with answers }
  | .error cause :: answers => .error cause { d with answers }

def Model.told (m : Model α σ) : Model α (Dialogue α) :=
  { m with
    likelihood := toldLikelihood
    logLikelihood := toldLikelihood
    logPredictive := toldLikelihood }

/-- What a chain does next: it asks for a likelihood, or it has ended. -/
inductive Request (α : Type) where
  | asks (θ : List α) (subject : Nat)
  | ends (outcome : Except (Error α) (Fit α))

/-- What the result of a fit on answers shows: an open question, if there is one. -/
def Request.ofResult (r : EStateM.Result (Error α) (Dialogue α) (Fit α)) : Request α :=
  match (leaves r).question with
  | some (θ, subject) => .asks θ subject
  | none => .ends (answer r)

/-- What a fit does after it was given answers. -/
def Model.request [Scalar α] (m : Model α σ) (settings : Settings α)
    (answers : List (Except ModelError α)) : Request α :=
  .ofResult (m.told.fit settings ⟨answers, none⟩)

namespace Inquiry

/-- What is left of an inquiry after answers. -/
def after : Inquiry α ρ → List (Except ModelError α) → Inquiry α ρ
  | .ask _ _ next, reply :: replies => after (next reply) replies
  | inquiry, _ => inquiry

@[simp] theorem after_nil (inquiry : Inquiry α ρ) : inquiry.after [] = inquiry := by
  cases inquiry <;> rfl

theorem after_append (inquiry : Inquiry α ρ) (replies replies' : List (Except ModelError α)) :
    inquiry.after (replies ++ replies') = (inquiry.after replies).after replies' := by
  induction replies generalizing inquiry with
  | nil => rw [List.nil_append, after_nil]
  | cons reply replies ih =>
    cases inquiry with
    | done result => cases replies' <;> rfl
    | ask θ subject next => exact ih (next reply)

/-- The result if every question has one answer. -/
def resolve (reply : List α → Nat → Except ModelError α) : Inquiry α ρ → ρ
  | .done result => result
  | .ask θ subject next => resolve reply (next (reply θ subject))

/-- The number of questions then. -/
def calls (reply : List α → Nat → Except ModelError α) : Inquiry α ρ → Nat
  | .done _ => 0
  | .ask θ subject next => calls reply (next (reply θ subject)) + 1

theorem run_eq_resolve {τ : Type} {likelihood : Likelihood α τ}
    {reply : List α → Nat → Except ModelError α}
    (h : ∀ θ subject memory, answer (likelihood θ subject memory) = reply θ subject)
    (inquiry : Inquiry α ρ) (memory : τ) :
    (inquiry.run likelihood memory).1 = inquiry.resolve reply := by
  induction inquiry generalizing memory with
  | done result => rfl
  | ask θ subject next ih =>
    unfold run resolve
    rw [h]
    exact ih _ _

/-- The first question without an answer stays. -/
theorem question_run_told (inquiry : Inquiry α ρ) {d : Dialogue α} (h : d.answers = [])
    {question : List α × Nat} (hquestion : d.question = some question) :
    (inquiry.run toldLikelihood d).2.question = some question := by
  induction inquiry generalizing d with
  | done result => exact hquestion
  | ask θ subject next ih =>
    have htold : toldLikelihood θ subject d = .error (.evaluation "no answer")
        { d with question := d.question <|> some (θ, subject) } := by
      unfold toldLikelihood
      rw [h]
    unfold run
    rw [htold]
    exact ih _ h (by rw [hquestion]; rfl)

/-- Running an inquiry on answers ends with its result, or with the question that comes next. -/
theorem run_told (inquiry : Inquiry α ρ) (replies : List (Except ModelError α)) :
    match inquiry.after replies with
    | .done result =>
      (inquiry.run toldLikelihood ⟨replies, none⟩).1 = result ∧
        (inquiry.run toldLikelihood ⟨replies, none⟩).2.question = none
    | .ask θ subject _ =>
      (inquiry.run toldLikelihood ⟨replies, none⟩).2.question = some (θ, subject) := by
  induction inquiry generalizing replies with
  | done result => cases replies <;> exact ⟨rfl, rfl⟩
  | ask θ subject next ih =>
    cases replies with
    | nil =>
      show ((next _).run toldLikelihood _).2.question = some (θ, subject)
      exact question_run_told _ rfl rfl
    | cons reply replies =>
      cases reply with
      | ok value => exact ih (.ok value) replies
      | error cause => exact ih (.error cause) replies

def request : Inquiry α (Except (Error α) (Fit α)) → Request α
  | .done outcome => .ends outcome
  | .ask θ subject _ => .asks θ subject

end Inquiry

variable [Scalar α]

/-- What a fit does next is what its inquiry does. -/
theorem Model.request_eq (m : Model α σ) (settings : Settings α)
    (answers : List (Except ModelError α)) :
    m.request settings answers = ((m.inquiry settings).after answers).request := by
  obtain ⟨hanswer, hleaves⟩ := m.fit_withLikelihoods settings m.told ⟨answers, none⟩
  have htold := (m.inquiry settings).run_told answers
  change answer (m.told.fit settings _) = ((m.inquiry settings).run toldLikelihood _).1 at hanswer
  change leaves (m.told.fit settings _) = ((m.inquiry settings).run toldLikelihood _).2 at hleaves
  rw [request, Request.ofResult, hanswer, hleaves]
  cases hafter : (m.inquiry settings).after answers with
  | done outcome =>
    rw [hafter] at htold
    simp only [htold.1, htold.2]
    rfl
  | ask θ subject next =>
    rw [hafter] at htold
    simp only [htold]
    rfl

/-! ## Turns -/

/-- How far the chains of an ensemble have come: the memory of their model, and the answers that
each of them was given. -/
structure Progress (α σ : Type) where
  memory : σ
  answers : Nat → List (Except ModelError α)

namespace Ensemble

variable (e : Ensemble) (m : Model α σ) (settings : Settings α)

/-- What a chain does next. -/
def request (p : Progress α σ) (chain : Nat) : Request α :=
  m.request (e.settingsOf settings chain) (p.answers chain)

/-- The outcome of a chain that has ended. -/
def outcome? (p : Progress α σ) (chain : Nat) : Option (Except (Error α) (Fit α)) :=
  match e.request m settings p chain with
  | .asks _ _ => none
  | .ends outcome => some outcome

/-- A turn of a chain. Nothing is done for one that has ended. -/
def turn (p : Progress α σ) (chain : Nat) : Progress α σ :=
  match e.request m settings p chain with
  | .asks θ subject =>
    { memory := leaves (m.logLikelihood θ subject p.memory)
      answers := Function.update p.answers chain
        (p.answers chain ++ [answer (m.logLikelihood θ subject p.memory)]) }
  | .ends _ => p

/-- The turns of a schedule. -/
def play (p : Progress α σ) (schedule : List Nat) : Progress α σ :=
  schedule.foldl (e.turn m settings) p

/-- Chains that have asked nothing yet. -/
def fresh (memory : σ) : Progress α σ := ⟨memory, fun _ => []⟩

/-- What is left of the inquiry of a chain. -/
noncomputable def left (p : Progress α σ) (chain : Nat) :
    Inquiry α (Except (Error α) (Fit α)) :=
  (m.inquiry (e.settingsOf settings chain)).after (p.answers chain)

section Turns

variable {e m settings} {p : Progress α σ} {i j : Nat}

theorem left_congr {p' : Progress α σ} (h : p'.answers j = p.answers j) :
    e.left m settings p' j = e.left m settings p j := by
  rw [left, h, left]

theorem outcome?_eq_some_iff {outcome : Except (Error α) (Fit α)} :
    e.outcome? m settings p i = some outcome ↔ e.left m settings p i = .done outcome := by
  rw [outcome?, request, m.request_eq]
  show (match (e.left m settings p i).request with
    | .asks _ _ => none
    | .ends outcome => some outcome) = some outcome ↔ _
  cases e.left m settings p i with
  | done result => simp [Inquiry.request]
  | ask θ subject next => simp [Inquiry.request]

theorem turn_of_done {outcome : Except (Error α) (Fit α)}
    (h : e.left m settings p i = .done outcome) : e.turn m settings p i = p := by
  have hrequest : e.request m settings p i = .ends outcome := by
    rw [request, m.request_eq]
    show (e.left m settings p i).request = _
    rw [h]
    rfl
  rw [turn, hrequest]

/-- In a turn a chain goes on with the answer of the model, and the others stay where they are. -/
theorem turn_of_ask {θ : List α} {subject : Nat}
    {next : Except ModelError α → Inquiry α (Except (Error α) (Fit α))}
    (h : e.left m settings p i = .ask θ subject next) :
    (e.turn m settings p i).memory = leaves (m.logLikelihood θ subject p.memory) ∧
      e.left m settings (e.turn m settings p i) i =
        next (answer (m.logLikelihood θ subject p.memory)) ∧
      ∀ j, j ≠ i → (e.turn m settings p i).answers j = p.answers j := by
  have hrequest : e.request m settings p i = .asks θ subject := by
    rw [request, m.request_eq]
    show (e.left m settings p i).request = _
    rw [h]
    rfl
  rw [turn, hrequest]
  refine ⟨rfl, ?_, fun j hj => Function.update_of_ne hj _ _⟩
  show (m.inquiry (e.settingsOf settings i)).after
    (Function.update p.answers i (p.answers i ++ [_]) i) = _
  rw [Function.update_self, Inquiry.after_append]
  show (e.left m settings p i).after [_] = _
  rw [h, Inquiry.after, Inquiry.after_nil]

end Turns

/-! ## Consistent models -/

section Consistent

variable {m} {p : Progress α σ} {reply : List α → Nat → Except ModelError α}
  (replies : ∀ θ subject memory, answer (m.logLikelihood θ subject memory) = reply θ subject)

include replies

/-- A turn changes no result, and takes a question off the chain whose turn it is. -/
theorem resolve_turn (p : Progress α σ) (i j : Nat) :
    (e.left m settings (e.turn m settings p i) j).resolve reply =
        (e.left m settings p j).resolve reply ∧
      (e.left m settings (e.turn m settings p i) j).calls reply =
        (e.left m settings p j).calls reply - if i = j then 1 else 0 := by
  cases h : e.left m settings p i with
  | done outcome =>
    rw [turn_of_done h]
    refine ⟨rfl, ?_⟩
    by_cases hij : i = j
    · rw [if_pos hij, ← hij, h]
      rfl
    · rw [if_neg hij, Nat.sub_zero]
  | ask θ subject next =>
    obtain ⟨-, hleft, hothers⟩ := turn_of_ask h
    by_cases hij : i = j
    · subst hij
      rw [hleft, h, replies, if_pos rfl]
      exact ⟨rfl, rfl⟩
    · rw [left_congr (hothers j (Ne.symm hij)), if_neg hij]
      exact ⟨rfl, rfl⟩

theorem resolve_play (p : Progress α σ) (schedule : List Nat) (j : Nat) :
    (e.left m settings (e.play m settings p schedule) j).resolve reply =
        (e.left m settings p j).resolve reply ∧
      (e.left m settings (e.play m settings p schedule) j).calls reply =
        (e.left m settings p j).calls reply - schedule.count j := by
  induction schedule generalizing p with
  | nil => exact ⟨rfl, rfl⟩
  | cons i schedule ih =>
    obtain ⟨hresolve, hcalls⟩ := ih (e.turn m settings p i)
    obtain ⟨hresolve', hcalls'⟩ := resolve_turn e settings replies p i j
    rw [List.count_cons]
    refine ⟨hresolve.trans hresolve', hcalls.trans ?_⟩
    rw [hcalls', Nat.sub_sub, Nat.add_comm]
    simp only [beq_iff_eq]

/-- A chain has ended after as many turns as it asks questions, with a result that no other chain
has a part in. -/
theorem outcome?_play_iff (p : Progress α σ) (schedule : List Nat) (j : Nat)
    (outcome : Except (Error α) (Fit α)) :
    e.outcome? m settings (e.play m settings p schedule) j = some outcome ↔
      outcome = (e.left m settings p j).resolve reply ∧
        (e.left m settings p j).calls reply ≤ schedule.count j := by
  obtain ⟨hresolve, hcalls⟩ := resolve_play e settings replies p schedule j
  rw [outcome?_eq_some_iff, ← hresolve, ← Nat.sub_eq_zero_iff_le, ← hcalls]
  cases e.left m settings (e.play m settings p schedule) j with
  | done result =>
    simp only [Inquiry.done.injEq, Inquiry.resolve, Inquiry.calls, and_true]
    exact eq_comm
  | ask θ subject next => simp [Inquiry.calls]

end Consistent

/-! ## One chain after another -/

section Sequential

variable {p : Progress α σ}

/-- As many turns of one chain as it asks questions are its run. -/
theorem play_alone (i : Nat) (inquiry : Inquiry α (Except (Error α) (Fit α)))
    (h : e.left m settings p i = inquiry) :
    ∃ n, (e.play m settings p (List.replicate n i)).memory =
          (inquiry.run m.logLikelihood p.memory).2 ∧
        e.outcome? m settings (e.play m settings p (List.replicate n i)) i =
          some (inquiry.run m.logLikelihood p.memory).1 ∧
        ∀ j, j ≠ i → (e.play m settings p (List.replicate n i)).answers j = p.answers j := by
  induction inquiry generalizing p with
  | done outcome => exact ⟨0, rfl, outcome?_eq_some_iff.2 h, fun _ _ => rfl⟩
  | ask θ subject next ih =>
    obtain ⟨hmemory, hleft, hothers⟩ := turn_of_ask h
    obtain ⟨n, hmemory', houtcome, hothers'⟩ := ih _ hleft
    rw [hmemory] at hmemory' houtcome
    exact ⟨n + 1, hmemory', houtcome, fun j hj => (hothers' j hj).trans (hothers j hj)⟩

theorem fit_eq_run (memory : σ) (i : Nat) :
    answer (m.fit (e.settingsOf settings i) memory) =
        ((m.inquiry (e.settingsOf settings i)).run m.logLikelihood memory).1 ∧
      leaves (m.fit (e.settingsOf settings i) memory) =
        ((m.inquiry (e.settingsOf settings i)).run m.logLikelihood memory).2 :=
  m.fit_withLikelihoods (e.settingsOf settings i) m memory

theorem runChains_cons (i : Nat) (chains : List Nat) (memory : σ) :
    e.runChains m settings (i :: chains) memory =
      (answer (m.fit (e.settingsOf settings i) memory) ::
          (e.runChains m settings chains (leaves (m.fit (e.settingsOf settings i) memory))).1,
        (e.runChains m settings chains (leaves (m.fit (e.settingsOf settings i) memory))).2) := by
  simp only [runChains, bind, StateT.bind]
  cases m.fit (e.settingsOf settings i) memory <;> rfl

/-- Every outcome of a run is that of a fit. -/
theorem exists_of_mem_runChains {chains : List Nat} {memory : σ}
    {outcome : Except (Error α) (Fit α)} (h : outcome ∈ (e.runChains m settings chains memory).1) :
    ∃ i ∈ chains, ∃ memory₁, answer (m.fit (e.settingsOf settings i) memory₁) = outcome := by
  induction chains generalizing memory with
  | nil => cases h
  | cons i rest ih =>
    rw [runChains_cons] at h
    rcases List.mem_cons.1 h with rfl | h
    · exact ⟨i, List.mem_cons_self, memory, rfl⟩
    · obtain ⟨j, hj, hanswer⟩ := ih h
      exact ⟨j, List.mem_cons_of_mem i hj, hanswer⟩

theorem length_runChains (chains : List Nat) (memory : σ) :
    (e.runChains m settings chains memory).1.length = chains.length := by
  induction chains generalizing memory with
  | nil => rfl
  | cons i rest ih => rw [runChains_cons, List.length_cons, ih, List.length_cons]

/-- Running the chains one after another is a schedule. -/
theorem play_runChains (chains : List Nat) (nodup : chains.Nodup) (p : Progress α σ)
    (unasked : ∀ i ∈ chains, p.answers i = []) :
    ∃ schedule, (∀ i ∈ schedule, i ∈ chains) ∧
      (e.play m settings p schedule).memory = (e.runChains m settings chains p.memory).2 ∧
      chains.mapM (e.outcome? m settings (e.play m settings p schedule)) =
        some (e.runChains m settings chains p.memory).1 ∧
      ∀ j, j ∉ chains → (e.play m settings p schedule).answers j = p.answers j := by
  induction chains generalizing p with
  | nil => exact ⟨[], fun _ h => h, rfl, rfl, fun _ _ => rfl⟩
  | cons i chains ih =>
    rw [List.nodup_cons] at nodup
    have hleft : e.left m settings p i = m.inquiry (e.settingsOf settings i) := by
      rw [left, unasked i List.mem_cons_self, Inquiry.after_nil]
    obtain ⟨n, hmemory, houtcome, hothers⟩ := play_alone e m settings i _ hleft
    obtain ⟨hanswer, hleaves⟩ := fit_eq_run e m settings p.memory i
    rw [← hleaves] at hmemory
    rw [← hanswer] at houtcome
    generalize hfirst : e.play m settings p (List.replicate n i) = p₁ at hmemory houtcome hothers
    obtain ⟨schedule, hschedule, hmemory', houtcomes, hothers'⟩ := ih nodup.2 p₁ fun j hj => by
      rw [hothers j (fun h => nodup.1 (h ▸ hj)), unasked j (List.mem_cons_of_mem i hj)]
    rw [hmemory] at hmemory' houtcomes
    have hplay : e.play m settings p (List.replicate n i ++ schedule) =
        e.play m settings p₁ schedule := by
      rw [← hfirst, play, List.foldl_append]
      rfl
    rw [runChains_cons]
    refine ⟨List.replicate n i ++ schedule, ?_, ?_, ?_, ?_⟩
    · intro j hj
      rcases List.mem_append.1 hj with hj | hj
      · rw [List.eq_of_mem_replicate hj]
        exact List.mem_cons_self
      · exact List.mem_cons_of_mem i (hschedule j hj)
    · rw [hplay, hmemory']
    · -- The chain that ran first is not asked again.
      have hsame : e.outcome? m settings (e.play m settings p₁ schedule) i =
          e.outcome? m settings p₁ i := by
        rw [outcome?, request, hothers' i nodup.1, outcome?, request]
      rw [hplay, List.mapM_cons, hsame, houtcome, houtcomes]
      rfl
    · intro j hj
      rw [hplay, hothers' j (fun h => hj (List.mem_cons_of_mem i h)),
        hothers j (fun h => hj (h ▸ List.mem_cons_self))]

end Sequential

end Ensemble

end Metropolis
