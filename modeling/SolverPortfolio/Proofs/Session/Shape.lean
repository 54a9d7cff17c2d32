import SolverPortfolio.Proofs.Session.Transcript
import SolverPortfolio.Scalar.Double

/-!
# The shape of a record

What a record of a session says about what the session did. The harness is not part of a
record, so the session is watched: its runs, in order, are the attempts of the record, each
within what was left of the budget when it was selected. There are at most as many as
settings allow, only the last one can have solved the task, and the loop answers if and only
if it did (`record_shape`).
-/

namespace SolverPortfolio

variable {α σ : Type}

namespace ServiceCall

/-- A run of an action by the harness. -/
def isRun : ServiceCall α → Bool
  | .run _ _ _ => true
  | _ => false

/-- An answer of the loop that is extended. -/
def isExtension : ServiceCall α → Bool
  | .extend _ _ _ => true
  | _ => false

theorem filter_requests {q : ServiceCall α → Bool} (hq : ∀ now, q (.clock now) = false)
    (calls : List (ServiceCall α)) : (calls.filter isRequest).filter q = calls.filter q := by
  rw [List.filter_filter]
  refine List.filter_congr fun c _ => ?_
  cases c with
  | clock now => rw [hq, Bool.false_and]
  | preprocess task remaining reply => exact Bool.and_true _
  | features task reply => exact Bool.and_true _
  | run action task reply => exact Bool.and_true _
  | extend output answer reply => exact Bool.and_true _

end ServiceCall

namespace Session

/-! ## Runs and extensions among the requests -/

section requests

variable {task given loopTask : Task α} {handed : Option (Handed α)}
  {computed : Option (FeatureVector α)}

/-- Nothing is run and nothing extended before the loop. -/
theorem filter_openingCalls {q : ServiceCall α → Bool}
    (hpre : ∀ task remaining reply, q (.preprocess task remaining reply) = false)
    (hfeatures : ∀ task reply, q (.features task reply) = false) :
    (openingCalls task given handed computed).filter q = [] := by
  refine List.filter_eq_nil_iff.mpr fun c hc => ?_
  rcases List.mem_append.mp hc with hc | hc
  · obtain ⟨h, _, rfl⟩ := List.mem_map.mp hc
    rw [Handed.call, hpre]
    exact Bool.false_ne_true
  · obtain ⟨v, _, rfl⟩ := List.mem_map.mp hc
    rw [hfeatures]
    exact Bool.false_ne_true

variable {answer final : Option Outcome} {extension : List (ServiceCall α)}

/-- What is run are the attempts. -/
theorem filter_isRun_requests (attempts : List (Attempt α))
    (h : Extension loopTask answer final extension) :
    (openingCalls task given handed computed ++ attempts.map (Attempt.call loopTask) ++
      extension).filter ServiceCall.isRun = attempts.map (Attempt.call loopTask) := by
  have hattempts : (attempts.map (Attempt.call loopTask)).filter ServiceCall.isRun =
      attempts.map (Attempt.call loopTask) := by
    refine List.filter_eq_self.mpr fun c hc => ?_
    obtain ⟨a, _, rfl⟩ := List.mem_map.mp hc
    rfl
  have hextension : extension.filter ServiceCall.isRun = [] := by cases h <;> rfl
  rw [List.filter_append, List.filter_append,
    filter_openingCalls (fun _ _ _ => rfl) (fun _ _ => rfl), hattempts, hextension,
    List.append_nil, List.nil_append]

theorem filter_isExtension_requests (attempts : List (Attempt α))
    (h : Extension loopTask answer final extension) :
    (openingCalls task given handed computed ++ attempts.map (Attempt.call loopTask) ++
      extension).filter ServiceCall.isExtension = extension := by
  have hattempts :
      (attempts.map (Attempt.call loopTask)).filter ServiceCall.isExtension = [] := by
    refine List.filter_eq_nil_iff.mpr fun c hc => ?_
    obtain ⟨a, _, rfl⟩ := List.mem_map.mp hc
    exact Bool.false_ne_true
  have hextension : extension.filter ServiceCall.isExtension = extension := by cases h <;> rfl
  rw [List.filter_append, List.filter_append,
    filter_openingCalls (fun _ _ _ => rfl) (fun _ _ => rfl), hattempts, hextension,
    List.nil_append, List.nil_append]

end requests

/-! ## The shape -/

variable [Analytic α] [GammaFunctions α]

/-- The loop of a watched session with these calls: it started from the ledger of the calls
made before it, and came to this result. -/
def Looped (services : Services α σ) (settings : SessionSettings)
    (strategy : Task α → Strategy α) (budget : α) (calls : List (ServiceCall α))
    (loopTask : Task α) (r : LoopResult α) : Prop :=
  ∃ t₀ t₁ : Traced α σ, t₀.2 <+: t₁.2 ∧ t₁.2 <+: calls ∧
    solveLoop services.traced settings loopTask settings.maxInvocations (strategy loopTask)
      (.ofCalls settings budget t₀.2) t₀ = (r, t₁)

variable [Rounded α] [EqualByValue α] {services : Services α σ} {settings : SessionSettings}
  {strategy : Task α → Strategy α} {task : Task α} {budget : α} {s : σ}
  {record : SessionRecord α}

/-- **The shape of a record.** Watch a session that ends with a record and was not over
after preprocessing. Its runs are the attempts of the record, in order, each on the task of
the loop; each cost at most what the calls until then had left of the budget, and the record
costs what they have used up. There are at most as many attempts as settings allow. Only the
last can have solved the task, and its outcome, certificate included, is the answer of the
loop if and only if it did. The answer of the record is that of the loop, or was extended
from it. -/
theorem record_shape
    (hrun : (run services settings strategy task budget s).1.result = .ok record)
    (hloop : ∀ p, record.preprocessing = some p → p.solvedDirectly = false) :
    ∃ calls loopTask r answer,
      run services.traced settings strategy task budget (s, []) =
        ((run services settings strategy task budget s).1,
          (run services settings strategy task budget s).2, calls) ∧
      calls.filter ServiceCall.isRun = record.attempts.map (Attempt.call loopTask) ∧
      Affordable settings budget calls ∧
      record.cost = (Ledger.ofCalls settings budget calls).elapsed ∧
      record.attempts.length ≤ settings.maxInvocations ∧
      (∀ a ∈ record.attempts.dropLast, a.result.outcome.isSolved = false) ∧
      Looped services settings strategy budget calls loopTask r ∧
      r.attempts = record.attempts ∧ r.ending = .ok answer ∧
      answer =
        (record.attempts.getLast?.map fun a => a.result.outcome).filter Outcome.isSolved ∧
      Extension loopTask answer record.answer (calls.filter ServiceCall.isExtension) := by
  obtain ⟨calls, hwatched, htranscript⟩ := transcript_of_record hrun
  cases htranscript with
  | direct solves closing =>
      rw [hloop _ rfl] at solves
      cases solves
  | @looped handed computed given loopTask l₀ l t₀ t₁ r answer final extension _ opening looped
      ended extended closing =>
      have hrounds := rounds_of_solveLoop _ looped ended
      have hgrown := (opening.rebase.rounds hrounds).grown
      refine ⟨calls, loopTask, r, answer, hwatched, ?_, closing.affordable, ?_,
        hrounds.length_le, hrounds.isSolved_of_mem_dropLast,
        ⟨t₀, t₁, hgrown, closing.grown, ?_⟩, rfl, ended, hrounds.answer_eq, ?_⟩
      · rw [← ServiceCall.filter_requests (fun _ => rfl), closing.asked,
          filter_isRun_requests r.attempts extended]
      · rw [closing.ledger]
      · rw [← opening.ledger]
        exact looped
      · rw [← ServiceCall.filter_requests (fun _ => rfl), closing.asked,
          filter_isExtension_requests r.attempts extended]
        exact extended

/-! A session in which all of this happens. -/

def shortRun : Action Float := ⟨"a", 5, "a@5s"⟩

/-- A preprocessor makes a simpler task, which takes two runs to solve. -/
def simplifying : Services Float Nat where
  run _ _ n := (.ok ⟨4, if n = 0 then .unsolved else .positive none, .exited 0⟩, n + 1)
  features _ n := (.ok ⟨["time"], [2]⟩, n)
  preprocessor := some
    { name := "simplify"
      preprocess := fun _ _ n => (.ok ⟨1, none, some (.ofPath "simpler")⟩, n)
      extend := fun _ _ n => (.ok (.positive (some ["x"])), n) }
  clock n := (some 0, n)

def simplified : SessionRecord Float where
  taskId := "t"
  budget := 100
  cost := 11
  attempts :=
    [⟨shortRun, ⟨4, .unsolved, .exited 0⟩⟩, ⟨shortRun, ⟨4, .positive none, .exited 0⟩⟩]
  answer := some (.positive (some ["x"]))
  preprocessing := some ⟨"simplify", 1, false, some "simpler"⟩

set_option maxRecDepth 1000 in
theorem record_shape_simplifying :
    (run simplifying ⟨5, true, true⟩ (fun _ => .fixed shortRun) (.ofPath "t") 100 0).1.result =
        .ok simplified ∧
      ∃ calls loopTask,
        (run simplifying.traced ⟨5, true, true⟩ (fun _ => .fixed shortRun) (.ofPath "t") 100
          (0, [])).2.2 = calls ∧
        calls.filter ServiceCall.isRun =
          [.run shortRun loopTask (.ok ⟨4, .unsolved, .exited 0⟩),
            .run shortRun loopTask (.ok ⟨4, .positive none, .exited 0⟩)] := by
  have hrun : (run simplifying ⟨5, true, true⟩ (fun _ => .fixed shortRun) (.ofPath "t") 100
      0).1.result = .ok simplified := rfl
  have hopen : ∀ p, simplified.preprocessing = some p → p.solvedDirectly = false :=
    fun p hp => by obtain rfl := Option.some.inj hp; rfl
  obtain ⟨calls, loopTask, _, _, hwatched, hruns, _⟩ := record_shape hrun hopen
  exact ⟨hrun, calls, loopTask, by rw [hwatched], hruns⟩

end Session

end SolverPortfolio
