import Mathlib.Data.Int.Notation
import Mathlib.Tactic.Common

/-! Computations that may stop with an error, counting loops whose body is one and may leave the
loop with a value, and the rules that reason about them by an invariant.
-/

namespace CachingFileSystem.Transitions

variable {State Value Err : Type}

/-- A computation continued by another one succeeds when both do. -/
theorem bind_eq_ok_iff {α β : Type} {first : Except Err α} {next : α → Except Err β} {result : β}
    : first >>= next = .ok result ↔ ∃ value, first = .ok value ∧ next value = .ok result := by
  constructor
  · intro completed
    cases first with
    | error err => cases completed
    | ok value => exact ⟨value, rfl, completed⟩
  · intro both
    obtain ⟨value, rfl, completed⟩ := both
    exact completed

/-- `for (int i = first; i < first + count; i++) body`; a body that answers with a value
leaves the loop.
-/
def forRange (body : ℤ → State → Except Err (Option Value × State))
    : ℕ → ℤ → State → Except Err (Option Value × State)
  | 0, _, s => .ok (none, s)
  | count + 1, i, s => do
      let (left, s) ← body i s
      match left with
      | some value => .ok (some value, s)
      | none => forRange body count (i + 1) s

variable {body : ℤ → State → Except Err (Option Value × State)} {count : ℕ} {first : ℤ}

/-- What every completed iteration preserves holds after a completed loop, however it was
left; by induction on the number of iterations.
-/
theorem forRange_preserves (Inv : State → Prop)
    (preserved
      : ∀ i s left s',
          first ≤ i → i < first + count → Inv s → body i s = .ok (left, s') → Inv s')
    {s s' : State} {left : Option Value} (initially : Inv s)
    (completed : forRange body count first s = .ok (left, s'))
    : Inv s' := by
  induction count generalizing first s with
  | zero =>
      cases completed
      exact initially
  | succ count ih =>
      simp only [forRange] at completed
      rcases iteration : body first s with err | ⟨_ | value, next⟩
      · rw [iteration] at completed
        cases completed
      · rw [iteration] at completed
        have inv := preserved first s none next (by omega) (by omega) initially iteration
        refine ih (fun i s left s' low high => ?_) inv completed
        exact preserved i s left s' (by omega) (by omega)
      · rw [iteration] at completed
        cases completed
        exact preserved first s _ _ (by omega) (by omega) initially iteration

/-- Loops whose bodies agree wherever the invariant holds agree; by induction on the number of
iterations.
-/
theorem forRange_congr {body' : ℤ → State → Except Err (Option Value × State)} (Inv : State → Prop)
    (preserved
      : ∀ i s left s',
          first ≤ i → i < first + count → Inv s → body i s = .ok (left, s') → Inv s')
    (agree : ∀ i s, first ≤ i → i < first + count → Inv s → body i s = body' i s)
    {s : State} (initially : Inv s)
    : forRange body count first s = forRange body' count first s := by
  induction count generalizing first s with
  | zero => rfl
  | succ count ih =>
      simp only [forRange]
      rw [← agree first s (by omega) (by omega) initially]
      rcases iteration : body first s with err | ⟨_ | value, next⟩
      · rfl
      · have inv := preserved first s none next (by omega) (by omega) initially iteration
        exact ih (fun i s left s' low high => preserved i s left s' (by omega) (by omega))
          (fun i s low high => agree i s (by omega) (by omega)) inv
      · rfl

/-- A loop whose body does to mapped states what another does to the states themselves maps the
result of the other loop; by induction on the number of iterations.
-/
theorem forRange_map {State' : Type} {body' : ℤ → State' → Except Err (Option Value × State')}
    {f : State → State'} (mapped : ∀ i s, body' i (f s) = Prod.map id f <$> body i s) (s : State)
    : forRange body' count first (f s) = Prod.map id f <$> forRange body count first s := by
  induction count generalizing first s with
  | zero => rfl
  | succ count ih =>
      simp only [forRange, mapped, map_bind, bind_map_left]
      refine congrArg _ (funext (fun answer => ?_))
      obtain ⟨_ | value, next⟩ := answer
      · exact ih next
      · rfl

/-- What the first iteration brings about and every later one preserves holds after the loop. -/
theorem forRange_establishes (Inv : State → Prop) {s s' : State} {left : Option Value}
    (established : ∀ left s', body first s = .ok (left, s') → Inv s')
    (preserved
      : ∀ i s left s',
          first < i → i < first + count → Inv s → body i s = .ok (left, s') → Inv s')
    (positive : 0 < count) (completed : forRange body count first s = .ok (left, s'))
    : Inv s' := by
  obtain ⟨count, rfl⟩ := Nat.exists_eq_succ_of_ne_zero (Nat.ne_of_gt positive)
  simp only [forRange] at completed
  rcases iteration : body first s with err | ⟨_ | value, next⟩
  · rw [iteration] at completed
    cases completed
  · rw [iteration] at completed
    refine forRange_preserves Inv (fun i s left s' low high => ?_) (established _ _ iteration)
      completed
    exact preserved i s left s' (by omega) (by omega)
  · rw [iteration] at completed
    cases completed
    exact established _ _ iteration

/-- A loop that stops with an error stopped in an iteration that started from a state with the
invariant; by induction on the number of iterations.
-/
theorem forRange_stopped (Inv : State → Prop)
    (preserved
      : ∀ i s left s',
          first ≤ i → i < first + count → Inv s → body i s = .ok (left, s') → Inv s')
    {s : State} {err : Err} (initially : Inv s)
    (stopped : forRange body count first s = .error err)
    : ∃ i s', first ≤ i ∧ i < first + count ∧ Inv s' ∧ body i s' = .error err := by
  induction count generalizing first s with
  | zero => cases stopped
  | succ count ih =>
      simp only [forRange] at stopped
      rcases iteration : body first s with failure | ⟨_ | value, next⟩
      · rw [iteration] at stopped
        cases stopped
        exact ⟨first, s, by omega, by omega, initially, iteration⟩
      · rw [iteration] at stopped
        have inv := preserved first s none next (by omega) (by omega) initially iteration
        obtain ⟨i, s', low, high, reached, failed⟩ := ih (fun i s left s' low high =>
          preserved i s left s' (by omega) (by omega)) inv stopped
        exact ⟨i, s', by omega, by omega, reached, failed⟩
      · rw [iteration] at stopped
        cases stopped

/-- A sequence of states with one more in front. -/
def precede (s : State) (states : ℕ → State) : ℕ → State
  | 0 => s
  | t + 1 => states t

/-- If every iteration completes without leaving and advances the invariant, the loop passes
through states that meet it, one iteration after the other; by induction on the number of
iterations.
-/
theorem forRange_trace (Inv : ℕ → State → Prop)
    (advances
      : ∀ t s, t < count → Inv t s → ∃ s', body (first + t) s = .ok (none, s') ∧ Inv (t + 1) s')
    {s : State} (initially : Inv 0 s)
    : ∃ states : ℕ → State,
        states 0 = s
        ∧ (∀ t < count, body (first + t) (states t) = .ok (none, states (t + 1)))
        ∧ (∀ t ≤ count, Inv t (states t))
        ∧ forRange body count first s = .ok (none, states count) := by
  induction count generalizing first s Inv with
  | zero =>
      refine ⟨fun _ => s, rfl, fun _ none => absurd none (Nat.not_lt_zero _), ?_, rfl⟩
      intro t zero
      rw [Nat.le_zero.mp zero]
      exact initially
  | succ count ih =>
      obtain ⟨next, iteration, inv⟩ := advances 0 s (Nat.succ_pos _) initially
      rw [Int.natCast_zero, Int.add_zero] at iteration
      have shift (t : ℕ) : first + 1 + (t : ℤ) = first + ((t + 1 : ℕ) : ℤ) := by omega
      obtain ⟨states, rfl, steps, holds, rest⟩ := @ih (first + 1) (fun t => Inv (t + 1))
        (fun t s below holds => by
          rw [shift]
          exact advances (t + 1) s (by omega) holds)
        next inv
      refine ⟨precede s states, rfl, ?_, ?_, ?_⟩
      · intro t before
        cases t with
        | zero =>
            rw [Int.natCast_zero, Int.add_zero]
            exact iteration
        | succ t =>
            rw [← shift]
            exact steps t (Nat.lt_of_succ_lt_succ before)
      · intro t within
        cases t with
        | zero => exact initially
        | succ t => exact holds t (Nat.le_of_succ_le_succ within)
      · simp only [forRange, iteration]
        exact rest

-----------------------------------------------------------------------------------------
-- A condition on every iteration
-----------------------------------------------------------------------------------------

/-- The condition holds before every iteration of the loop, as far as it gets. -/
def EachIteration (body : ℤ → State → Except Err (Option Value × State))
    (allowed : ℤ → State → Prop)
    : ℕ → ℤ → State → Prop
  | 0, _, _ => True
  | count + 1, i, s =>
      allowed i s ∧ ∀ s', body i s = .ok (none, s') → EachIteration body allowed count (i + 1) s'

/-- Of a loop that is not left it holds before all its iterations; by induction on their number. -/
theorem eachIteration_iff {allowed : ℤ → State → Prop} {states : ℕ → State}
    (steps : ∀ t < count, body (first + t) (states t) = .ok (none, states (t + 1)))
    : EachIteration body allowed count first (states 0)
      ↔ ∀ t < count, allowed (first + t) (states t) := by
  induction count generalizing first states with
  | zero => exact iff_of_true trivial (fun t none => absurd none (Nat.not_lt_zero t))
  | succ count ih =>
      have start : body first (states 0) = .ok (none, states 1) := by
        have iteration := steps 0 (Nat.succ_pos count)
        rwa [Int.natCast_zero, Int.add_zero] at iteration
      have shift (t : ℕ) : first + 1 + (t : ℤ) = first + ((t + 1 : ℕ) : ℤ) := by omega
      have rest := @ih (first + 1) (fun t => states (t + 1)) (fun t more => by
        rw [shift]
        exact steps (t + 1) (Nat.succ_lt_succ more))
      constructor
      · intro each t more
        cases t with
        | zero =>
            rw [Int.natCast_zero, Int.add_zero]
            exact each.1
        | succ t =>
            rw [← shift]
            exact rest.mp (each.2 _ start) t (Nat.lt_of_succ_lt_succ more)
      · intro every
        have here := every 0 (Nat.succ_pos count)
        rw [Int.natCast_zero, Int.add_zero] at here
        refine ⟨here, fun s' iteration => ?_⟩
        cases start.symm.trans iteration
        refine rest.mpr (fun t more => ?_)
        rw [shift]
        exact every (t + 1) (Nat.succ_lt_succ more)

/-- What every completed iteration preserves under the condition holds after a completed loop; by
induction on the number of iterations.
-/
theorem EachIteration.preserves {allowed : ℤ → State → Prop} (Inv : State → Prop)
    (preserved
      : ∀ i s left s',
          first ≤ i
          → i < first + count
          → Inv s
          → allowed i s
          → body i s = .ok (left, s')
          → Inv s')
    {s s' : State} {left : Option Value} (each : EachIteration body allowed count first s)
    (initially : Inv s) (completed : forRange body count first s = .ok (left, s'))
    : Inv s' := by
  induction count generalizing first s with
  | zero =>
      cases completed
      exact initially
  | succ count ih =>
      simp only [forRange] at completed
      rcases iteration : body first s with err | ⟨_ | value, next⟩
      · rw [iteration] at completed
        cases completed
      · rw [iteration] at completed
        have inv := preserved first s none next (by omega) (by omega) initially each.1 iteration
        refine ih (fun i s left s' low high => ?_) (each.2 next iteration) inv completed
        exact preserved i s left s' (by omega) (by omega)
      · rw [iteration] at completed
        cases completed
        exact preserved first s _ _ (by omega) (by omega) initially each.1 iteration

end CachingFileSystem.Transitions
