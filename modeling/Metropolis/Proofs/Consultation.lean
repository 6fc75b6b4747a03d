import Metropolis.Proofs.Scales

/-!
# How a model is consulted

The evaluation of a vector asks a model for its subjects in order, once each, up to the first of
likelihood zero or the first that cannot be evaluated; outside the support of the prior it asks for
none. The model may answer by what it was asked before, so that the order and the number of the
questions matter. They are read off a model that keeps a note of every question in its memory.

A sum never becomes finite again once a term was not, so that a point is feasible only if all terms
of its density are finite.
-/

namespace Metropolis

variable {α σ : Type}

/-! ## Notes of the questions -/

/-- A likelihood that notes every question, and answers as before. -/
def Likelihood.noted (f : Likelihood α σ) : Likelihood α (σ × List (List α × Nat)) :=
  fun θ subject state =>
    match f θ subject state.1 with
    | .ok value memory => .ok value (memory, state.2 ++ [(θ, subject)])
    | .error cause memory => .error cause (memory, state.2 ++ [(θ, subject)])

def Model.noted (m : Model α σ) : Model α (σ × List (List α × Nat)) :=
  { m with
    likelihood := m.likelihood.noted
    logLikelihood := m.logLikelihood.noted
    logPredictive := m.logPredictive.noted }

def Target.noted (t : Target α σ) : Target α (σ × List (List α × Nat)) :=
  ⟨t.model.noted, t.registry⟩

namespace Model

variable {m : Model α σ} {θ : List α} {memory : σ}

/-- A model's memory after it was asked for the first `n` subjects, one after another. -/
def memoryAfter (m : Model α σ) (θ : List α) (memory : σ) : Nat → σ
  | 0 => memory
  | n + 1 => leaves (m.logLikelihood θ n (memoryAfter m θ memory n))

/-- What a model answers for a subject after it was asked for all subjects before it. -/
def reply (m : Model α σ) (θ : List α) (memory : σ) (subject : Nat) : Except ModelError α :=
  answer (m.logLikelihood θ subject (m.memoryAfter θ memory subject))

theorem logLikelihood_of_reply_ok {k : Nat} {x : α} (h : m.reply θ memory k = .ok x) :
    m.logLikelihood θ k (m.memoryAfter θ memory k) = .ok x (m.memoryAfter θ memory (k + 1)) :=
  answer_eq_ok h

theorem logLikelihood_of_reply_error {k : Nat} {cause : ModelError}
    (h : m.reply θ memory k = .error cause) :
    m.logLikelihood θ k (m.memoryAfter θ memory k) =
      .error cause (m.memoryAfter θ memory (k + 1)) :=
  answer_eq_error h

theorem logLikelihood_noted (m : Model α σ) (θ : List α) (k : Nat) (memory : σ)
    (notes : List (List α × Nat)) :
    answer (m.noted.logLikelihood θ k (memory, notes)) = answer (m.logLikelihood θ k memory) ∧
      leaves (m.noted.logLikelihood θ k (memory, notes)) =
        (leaves (m.logLikelihood θ k memory), notes ++ [(θ, k)]) := by
  show answer (m.logLikelihood.noted θ k _) = _ ∧ leaves (m.logLikelihood.noted θ k _) = _
  unfold Likelihood.noted
  dsimp only
  cases m.logLikelihood θ k memory <;> exact ⟨rfl, rfl⟩

theorem memoryAfter_noted (m : Model α σ) (θ : List α) (memory : σ)
    (notes : List (List α × Nat)) (n : Nat) :
    m.noted.memoryAfter θ (memory, notes) n =
      (m.memoryAfter θ memory n, notes ++ (List.range n).map fun k => (θ, k)) := by
  induction n with
  | zero => rw [List.range_zero, List.map_nil, List.append_nil]; rfl
  | succ n ih =>
    rw [memoryAfter, ih, (logLikelihood_noted ..).2, List.range_succ, List.map_append,
      List.append_assoc]
    rfl

theorem reply_noted (m : Model α σ) (θ : List α) (memory : σ) (notes : List (List α × Nat))
    (k : Nat) : m.noted.reply θ (memory, notes) k = m.reply θ memory k := by
  rw [reply, memoryAfter_noted, (logLikelihood_noted ..).1]
  rfl

end Model

/-! ## How a consultation ends -/

/-- What the subjects come to: a sum, a likelihood of zero, or an error. -/
inductive Verdict (α : Type) where
  | total (sum : α)
  | zero
  | failed (cause : ModelError)

variable [Scalar α]

namespace Verdict

def sum : Verdict α → Except ModelError α
  | .total sum => .ok sum
  | .zero => .ok (-Scalar.infinity)
  | .failed cause => .error cause

/-- What is made of it at a vector with a prior. -/
def outcome (θ : List α) (logPrior : α) : Verdict α → Except (Error α) (Point α)
  | .total sum => .ok ⟨θ, sum, logPrior + sum⟩
  | .zero => .ok ⟨θ, -Scalar.infinity, logPrior + -Scalar.infinity⟩
  | .failed cause => .error (.model cause)

end Verdict

namespace Model

variable {m : Model α σ} {θ : List α} {memory : σ} {calls : Nat} {verdict : Verdict α}

/-- Whether the first subjects answer with the listed numbers, none of which is `-infinity`. -/
structure Answers (m : Model α σ) (θ : List α) (memory : σ) (terms : List α) : Prop where
  replies : (List.range terms.length).map (m.reply θ memory) = terms.map .ok
  positive : ∀ x ∈ terms, ¬ (x == -Scalar.infinity) = true

/-- How a consultation ends, and after how many questions. -/
inductive Consults (m : Model α σ) (θ : List α) (memory : σ) : Nat → Verdict α → Prop
  | total {terms : List α} (answers : m.Answers θ memory terms)
      (complete : terms.length = m.subjects) :
      Consults m θ memory terms.length (.total (terms.foldl (· + ·) 0))
  | zero {terms : List α} {x : α} (answers : m.Answers θ memory terms)
      (left : terms.length < m.subjects) (reply : m.reply θ memory terms.length = .ok x)
      (zero : (x == -Scalar.infinity) = true) : Consults m θ memory (terms.length + 1) .zero
  | failed {terms : List α} {cause : ModelError} (answers : m.Answers θ memory terms)
      (left : terms.length < m.subjects) (reply : m.reply θ memory terms.length = .error cause) :
      Consults m θ memory (terms.length + 1) (.failed cause)

theorem Answers.concat {terms : List α} {x : α} (h : m.Answers θ memory terms)
    (reply : m.reply θ memory terms.length = .ok x) (positive : ¬ (x == -Scalar.infinity) = true) :
    m.Answers θ memory (terms ++ [x]) where
  replies := by
    rw [List.length_append, List.length_singleton, List.range_succ, List.map_append, h.replies,
      List.map_append, List.map_singleton, reply, List.map_singleton]
  positive y hy := by
    rcases List.mem_append.1 hy with hy | hy
    · exact h.positive y hy
    · rw [List.mem_singleton.1 hy]
      exact positive

theorem Answers.of_concat {terms : List α} {x : α} (h : m.Answers θ memory (terms ++ [x])) :
    m.Answers θ memory terms ∧ m.reply θ memory terms.length = .ok x ∧
      ¬ (x == -Scalar.infinity) = true := by
  have hreplies := h.replies
  rw [List.length_append, List.length_singleton, List.range_succ, List.map_append,
    List.map_append] at hreplies
  obtain ⟨hterms, hx⟩ := List.append_inj' hreplies rfl
  exact ⟨⟨hterms, fun y hy => h.positive y (List.mem_append_left _ hy)⟩, (List.cons.inj hx).1,
    h.positive x (List.mem_append_right _ List.mem_cons_self)⟩

/-- Every consultation ends in one of these ways. -/
theorem exists_consults (m : Model α σ) (θ : List α) (memory : σ) :
    ∃ calls verdict, m.Consults θ memory calls verdict := by
  -- By the number of subjects that were asked.
  have hasked : ∀ n ≤ m.subjects, (∃ terms, terms.length = n ∧ m.Answers θ memory terms) ∨
      ∃ calls verdict, m.Consults θ memory calls verdict := by
    intro n
    induction n with
    | zero => exact fun _ => .inl ⟨[], rfl, rfl, List.forall_mem_nil _⟩
    | succ n ih =>
      intro left
      rcases ih (Nat.le_of_succ_le left) with ⟨terms, rfl, answers⟩ | ended
      · cases hreply : m.reply θ memory terms.length with
        | ok x =>
          cases hzero : x == -Scalar.infinity with
          | true => exact .inr ⟨_, _, .zero answers left hreply hzero⟩
          | false =>
            exact .inl ⟨terms ++ [x], by rw [List.length_append, List.length_singleton],
              answers.concat hreply (Bool.eq_false_iff.1 hzero)⟩
        | error cause => exact .inr ⟨_, _, .failed answers left hreply⟩
      · exact .inr ended
  rcases hasked m.subjects (Nat.le_refl _) with ⟨terms, complete, answers⟩ | ended
  · exact ⟨_, _, .total answers complete⟩
  · exact ended

/-- Notes of the questions do not change how a consultation ends. -/
theorem Consults.noted (h : m.Consults θ memory calls verdict) (notes : List (List α × Nat)) :
    m.noted.Consults θ (memory, notes) calls verdict := by
  have hreply : m.noted.reply θ (memory, notes) = m.reply θ memory :=
    funext fun k => reply_noted m θ memory notes k
  have hanswers {terms : List α} (answers : m.Answers θ memory terms) :
      m.noted.Answers θ (memory, notes) terms :=
    ⟨by rw [hreply]; exact answers.replies, answers.positive⟩
  cases h with
  | total answers complete => exact .total (hanswers answers) complete
  | zero answers left reply zero =>
    exact .zero (hanswers answers) left (by rw [hreply]; exact reply) zero
  | failed answers left reply =>
    exact .failed (hanswers answers) left (by rw [hreply]; exact reply)

end Model

/-! ## The sum over the subjects -/

namespace Target

variable {m : Model α σ} {t : Target α σ} {θ : List α} {memory : σ} {calls : Nat}
  {verdict : Verdict α}

/-- The sum over the subjects goes on after those that answered with numbers. -/
theorem addSubjects_of_answers {terms : List α} (h : m.Answers θ memory terms) (rest : Nat) :
    addSubjects m θ (List.range (terms.length + rest)) 0 memory =
      addSubjects m θ (List.range' terms.length rest) (terms.foldl (· + ·) 0)
        (m.memoryAfter θ memory terms.length) := by
  induction terms using List.reverseRecOn generalizing rest with
  | nil =>
    rw [List.length_nil, Nat.zero_add, List.range_eq_range']
    rfl
  | append_singleton terms x ih =>
    -- Induction at the end, as the last subject is asked with what those before it left.
    obtain ⟨answers, hx, hpositive⟩ := h.of_concat
    rw [List.length_append, List.length_singleton, Nat.add_assoc, Nat.add_comm 1 rest,
      ih answers, List.range'_succ, List.foldl_append]
    conv_lhs => unfold addSubjects
    rw [bind_of_ok _ (Model.logLikelihood_of_reply_ok hx), if_neg hpositive]
    rfl

theorem addSubjects_of_consults (h : m.Consults θ memory calls verdict) :
    answer (addSubjects m θ (List.range m.subjects) 0 memory) = verdict.sum ∧
      leaves (addSubjects m θ (List.range m.subjects) 0 memory) = m.memoryAfter θ memory calls := by
  cases h with
  | @total terms answers complete =>
    have hsum := addSubjects_of_answers answers 0
    rw [Nat.add_zero, complete] at hsum
    rw [hsum]
    exact ⟨rfl, by rw [complete]; rfl⟩
  | @zero terms x answers left reply zero =>
    -- The sum has come to the subject that ends it, with some left after it.
    obtain ⟨rest, hrest⟩ := Nat.exists_eq_add_of_lt left
    rw [hrest, Nat.add_assoc, addSubjects_of_answers answers, List.range'_succ]
    unfold addSubjects
    rw [bind_of_ok _ (Model.logLikelihood_of_reply_ok reply), if_pos zero]
    exact ⟨rfl, rfl⟩
  | @failed terms cause answers left reply =>
    obtain ⟨rest, hrest⟩ := Nat.exists_eq_add_of_lt left
    rw [hrest, Nat.add_assoc, addSubjects_of_answers answers, List.range'_succ]
    unfold addSubjects
    rw [bind_of_error _ (Model.logLikelihood_of_reply_error reply)]
    exact ⟨rfl, rfl⟩

/-! ## The evaluation -/

theorem evaluate_of_impossible {logPrior : α} (hprior : t.logPrior θ = .ok logPrior)
    (hzero : (logPrior == -Scalar.infinity) = true) (memory : σ) :
    t.evaluate θ memory = .ok (.impossible θ) memory := by
  unfold evaluate
  rw [hprior, bind_ofExcept, if_pos hzero]
  rfl

/-- Within the support of the prior an evaluation is what the consultation makes of it. -/
theorem evaluate_of_consults {logPrior : α} (hθ : θ.length = t.dimension)
    (hprior : t.logPrior θ = .ok logPrior) (hpositive : ¬ (logPrior == -Scalar.infinity) = true)
    (h : t.model.Consults θ memory calls verdict) :
    answer (t.evaluate θ memory) = verdict.outcome θ logPrior ∧
      leaves (t.evaluate θ memory) = t.model.memoryAfter θ memory calls := by
  obtain ⟨hanswer, hleaves⟩ := addSubjects_of_consults h
  -- What the sum answered is the verdict, whichever of the two results it has.
  unfold evaluate
  rw [hprior, bind_ofExcept, if_neg hpositive]
  cases hsum : addSubjects t.model θ (List.range t.model.subjects) 0 memory with
  | ok x memory' =>
    rw [hsum] at hanswer hleaves
    rw [bind_of_ok _ (logLikelihood_of_addSubjects hθ hsum)]
    refine ⟨?_, hleaves⟩
    cases verdict <;> cases hanswer <;> rfl
  | error cause memory' =>
    rw [hsum] at hanswer hleaves
    rw [bind_of_error _ (logLikelihood_of_addSubjects_error hθ hsum)]
    refine ⟨?_, hleaves⟩
    cases verdict <;> cases hanswer
    rfl

end Target

/-! ## Feasible points -/

section Finite

variable [Scalar.LawfulInfinity α]

theorem isFinite_of_foldl_add {xs : List α} {total : α}
    (h : Scalar.isFinite (xs.foldl (· + ·) total) = true) :
    Scalar.isFinite total = true ∧ ∀ x ∈ xs, Scalar.isFinite x = true := by
  induction xs generalizing total with
  | nil => exact ⟨h, List.forall_mem_nil _⟩
  | cons x xs ih =>
    obtain ⟨hsum, hxs⟩ := ih h
    obtain ⟨htotal, hx⟩ := Scalar.LawfulInfinity.isFinite_of_add hsum
    exact ⟨htotal, List.forall_mem_cons.2 ⟨hx, hxs⟩⟩

/-- A consultation with a finite sum has asked every subject and got a finite number from each. -/
theorem Model.Consults.finite {m : Model α σ} {θ : List α} {memory : σ} {calls : Nat} {sum : α}
    (h : m.Consults θ memory calls (.total sum)) (hsum : Scalar.isFinite sum = true) :
    ∀ k < m.subjects, ∃ x, m.reply θ memory k = .ok x ∧ Scalar.isFinite x = true := by
  cases h with
  | @total terms answers complete =>
    intro k hk
    rw [← complete] at hk
    have hreply : (((List.range terms.length).map (m.reply θ memory))[k]?) =
        (terms.map Except.ok)[k]? := by rw [answers.replies]
    rw [List.getElem?_map, List.getElem?_map, List.getElem?_range hk, List.getElem?_eq_getElem hk,
      Option.map_some, Option.map_some, Option.some.injEq] at hreply
    exact ⟨terms[k], hreply, (isFinite_of_foldl_add hsum).2 _ (List.getElem_mem hk)⟩

theorem Verdict.outcome_zero {logPrior : α} (h : Scalar.isFinite logPrior = true) (θ : List α) :
    Verdict.zero.outcome θ logPrior = .ok (.impossible θ) := by
  rw [outcome, Scalar.LawfulInfinity.add_neg_infinity h]
  rfl

end Finite

namespace Target

/-- Outside the support of the prior both values are `-infinity` and the model is not asked.
Otherwise the subjects are asked in order, once each, up to the end of the consultation: after the
last of them, of which the log-posterior is the prior plus the sum in order, or after the first that
answers `-infinity`, which both values are then, or after the first error, which is given. The prior
is finite there unless its finite terms overflow. All terms are finite if the point is feasible. -/
theorem evaluate_consults [Scalar.LawfulInfinity α] {m : Model α σ}
    {regs : List (Registration α)} {t : Target α σ}
    (ht : ofRegistry m (Registry.after regs) = .ok t) {θ : List α} (hθ : θ.length = t.dimension)
    (memory : σ) :
    ∃ logPrior, t.logPrior θ = .ok logPrior ∧
      (logPrior = -Scalar.infinity → t.evaluate θ memory = .ok (.impossible θ) memory ∧
        ∀ notes, t.noted.evaluate θ (memory, notes) = .ok (.impossible θ) (memory, notes)) ∧
      (∃ calls verdict, m.Consults θ memory calls verdict) ∧
      (logPrior ≠ -Scalar.infinity → ∀ calls verdict, m.Consults θ memory calls verdict →
        answer (t.evaluate θ memory) = verdict.outcome θ logPrior ∧
        leaves (t.evaluate θ memory) = m.memoryAfter θ memory calls ∧
        ∀ notes, answer (t.noted.evaluate θ (memory, notes)) = verdict.outcome θ logPrior ∧
          leaves (t.noted.evaluate θ (memory, notes)) =
            (m.memoryAfter θ memory calls, notes ++ (List.range calls).map fun k => (θ, k))) ∧
      (Scalar.isFinite logPrior = true → Verdict.zero.outcome θ logPrior = .ok (.impossible θ)) ∧
      (Scalar.NoOverflow α → logPrior ≠ -Scalar.infinity → Scalar.isFinite logPrior = true) ∧
      ∀ p, answer (t.evaluate θ memory) = .ok p → p.isFeasible = true →
        (∀ entry ∈ t.registry.entries, ∃ x, Registry.logTerm θ entry.1 entry.2 = .ok x ∧
          Scalar.isFinite x = true) ∧
        ∀ k < m.subjects, ∃ x, m.reply θ memory k = .ok x ∧ Scalar.isFinite x = true := by
  have closed := (Registry.holds_after regs).isClosed
  obtain ⟨logPrior, hprior⟩ := isCovered_of_ofRegistry closed ht θ hθ
  obtain ⟨rfl, hcoverage⟩ := ofRegistry_eq_ok ht
  have hcovered : ∀ i ∈ (Registry.after regs).indices, i < θ.length := by
    rw [hθ]
    exact Registry.lt_of_checkCoverage hcoverage
  have hprior' : (noted ⟨m, Registry.after regs⟩).logPrior θ = .ok logPrior := hprior
  have hterms := Registry.logTerms_eq_ok closed hcovered
  have hcases := Registry.logPrior_cases closed hcovered (registry_logPrior_of_ok hprior)
  have hbeq := Scalar.LawfulInfinity.beq_neg_infinity_iff logPrior
  obtain ⟨calls, verdict, ended⟩ := m.exists_consults θ memory
  refine ⟨logPrior, hprior, fun hzero => ?_, ⟨calls, verdict, ended⟩,
    fun hne calls verdict ended => ?_, fun hfinite => Verdict.outcome_zero hfinite θ,
    fun noOverflow hne => ?_, fun p hp hfeasible => ?_⟩
  · exact ⟨evaluate_of_impossible hprior (hbeq.2 hzero) memory,
      fun notes => evaluate_of_impossible hprior' (hbeq.2 hzero) (memory, notes)⟩
  · have hpositive := mt hbeq.1 hne
    -- The noted model has the same consultation.
    obtain ⟨hanswer, hleaves⟩ := evaluate_of_consults hθ hprior hpositive ended
    refine ⟨hanswer, hleaves, fun notes => ?_⟩
    obtain ⟨hanswer', hleaves'⟩ :=
      evaluate_of_consults (t := noted ⟨m, Registry.after regs⟩) hθ hprior' hpositive
        (ended.noted notes)
    exact ⟨hanswer', hleaves'.trans (m.memoryAfter_noted θ memory notes calls)⟩
  · obtain ⟨x, hx, hfinite⟩ :=
      Registry.logPrior_finite noOverflow closed hcovered (hcases.resolve_left hne)
    cases (registry_logPrior_of_ok hprior).symm.trans hx
    exact hfinite
  · have hinfinite : ¬ Scalar.isFinite (-Scalar.infinity : α) = true :=
      Bool.eq_false_iff.1 Scalar.LawfulInfinity.not_isFinite_neg_infinity
    by_cases hzero : logPrior = -Scalar.infinity
    · -- A point outside the support of the prior is not feasible.
      rw [evaluate_of_impossible hprior (hbeq.2 hzero)] at hp
      cases hp
      exact absurd hfeasible hinfinite
    · rw [(evaluate_of_consults hθ hprior (mt hbeq.1 hzero) ended).1] at hp
      cases verdict with
      | total sum =>
        cases hp
        exact ⟨fun entry hentry =>
            ⟨_, hterms entry hentry, hcases.resolve_left hzero entry hentry⟩,
          ended.finite (Scalar.LawfulInfinity.isFinite_of_add hfeasible).2⟩
      | zero =>
        cases hp
        exact absurd (Scalar.LawfulInfinity.isFinite_of_add hfeasible).2 hinfinite
      | failed cause => cases hp

/-- A model of three subjects that answers `-infinity` to the second question, whatever that is. -/
noncomputable def fadingModel : Model Exact Nat :=
  { levelModel none with
    subjects := 3
    logLikelihood := fun _ _ calls => .ok (if calls = 1 then .negInf else 0) (calls + 1) }

noncomputable def fadingTarget : Target Exact Nat :=
  ⟨fadingModel, Registry.after [.fixed 0 .flat]⟩

theorem answers_fading {memory n : Nat}
    (h : (List.range n).map (fadingModel.reply [0] memory) = (List.replicate n 0).map .ok) :
    fadingModel.Answers [0] memory (List.replicate n 0) where
  replies := by rw [List.length_replicate, h]
  positive x hx := by
    rw [List.eq_of_mem_replicate hx]
    exact Bool.false_ne_true

/-- Asked from the first question on, the evaluation stops after two subjects; asked again it goes
on to the last. -/
theorem evaluate_consults_fading :
    ofRegistry fadingModel (Registry.after [.fixed 0 .flat]) = .ok fadingTarget ∧
      [(0 : Exact)].length = fadingTarget.dimension ∧
      answer (fadingTarget.noted.evaluate [0] (0, [])) = .ok ⟨[0], .negInf, .negInf⟩ ∧
      leaves (fadingTarget.noted.evaluate [0] (0, [])) = (2, [([0], 0), ([0], 1)]) ∧
      leaves (fadingTarget.noted.evaluate [0] (2, [])) = (5, [([0], 0), ([0], 1), ([0], 2)]) := by
  have ht : ofRegistry fadingModel (Registry.after [.fixed 0 .flat]) = .ok fadingTarget := rfl
  have hθ : [(0 : Exact)].length = fadingTarget.dimension := rfl
  have hprior : fadingTarget.logPrior [0] = .ok (0 + 0) := rfl
  have consulted (memory calls : Nat) (verdict : Verdict Exact)
      (ended : fadingModel.Consults [0] memory calls verdict) :
      answer (fadingTarget.noted.evaluate [0] (memory, [])) = verdict.outcome [0] (0 + 0) ∧
        leaves (fadingTarget.noted.evaluate [0] (memory, [])) =
          (fadingModel.memoryAfter [0] memory calls, (List.range calls).map fun k => ([0], k)) := by
    obtain ⟨x, hx, -, -, consulted, -⟩ := evaluate_consults ht hθ memory
    cases hprior.symm.trans hx
    exact (consulted (fun h => by cases h) calls verdict ended).2.2 []
  have hzero : fadingModel.Consults [0] 0 2 .zero :=
    .zero (answers_fading (n := 1) rfl) (by decide) (x := .negInf) rfl rfl
  have htotal : fadingModel.Consults [0] 2 3 (.total (0 + 0 + 0 + 0)) :=
    .total (answers_fading (n := 3) rfl) rfl
  exact ⟨ht, hθ, (consulted 0 2 _ hzero).1, (consulted 0 2 _ hzero).2, (consulted 2 3 _ htotal).2⟩

end Target

end Metropolis
