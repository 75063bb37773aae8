import CachingFileSystem.Transitions.Loops
import Mathlib.Data.List.Defs

/-! Runs of labelled transition systems, and of machines that answer every operation with
an output or stop with an error.
-/

namespace CachingFileSystem.Transitions

/-- A labelled transition system over arbitrary states and labels. -/
structure System (State Label : Type) where
  start : State → Prop
  step : State → Label → State → Prop

variable {State State' Label : Type}

/-- A run has the labels of its steps, latest first, and the state it ends in. -/
inductive System.Run (sys : System State Label) : List Label → State → Prop
  | start {s} (initial : sys.start s) : sys.Run [] s
  | step {labels label s s'} (before : sys.Run labels s) (next : sys.step s label s')
    : sys.Run (label :: labels) s'

/-- What holds initially and is preserved by every step holds at the end of every run. -/
theorem System.Run.invariant {sys : System State Label} (Inv : List Label → State → Prop)
    (initial : ∀ s, sys.start s → Inv [] s)
    (preserved
      : ∀ labels label s s', Inv labels s → sys.step s label s' → Inv (label :: labels) s')
    {labels : List Label} {s : State} (run : sys.Run labels s)
    : Inv labels s := by
  induction run with
  | start start => exact initial _ start
  | step _ next ih => exact preserved _ _ _ _ ih next

/-- The runs all of whose steps are allowed. -/
def System.restrict (sys : System State Label) (allowed : State → Label → Prop)
    : System State Label where
  start := sys.start
  step := fun s label s' => allowed s label ∧ sys.step s label s'

/-- Steps from one state to another have the labels of a run between them, latest first. -/
inductive Steps (step : State → Label → State → Prop) : State → List Label → State → Prop
  | none {s} : Steps step s [] s
  | more {s labels t label u} (before : Steps step s labels t) (next : step t label u)
    : Steps step s (label :: labels) u

variable {step : State → Label → State → Prop} {s t u : State}

/-- What holds before the steps and is preserved by every step holds after them. -/
theorem Steps.invariant (Inv : List Label → State → Prop) (initially : Inv [] s)
    (preserved : ∀ labels s label s', Inv labels s → step s label s' → Inv (label :: labels) s')
    {labels : List Label} (steps : Steps step s labels t)
    : Inv labels t := by
  induction steps with
  | none => exact initially
  | more _ next ih => exact preserved _ _ _ _ ih next

/-- A step may come before others; by induction on those. -/
theorem Steps.after {label : Label} {labels : List Label} (first : step s label t)
    (later : Steps step t labels u)
    : Steps step s (labels ++ [label]) u := by
  induction later with
  | none => exact .more .none first
  | more _ next ih => exact .more ih next

/-- Steps that can each be undone, from states that keep an invariant, are undone by the opposite
steps in the opposite order; by induction on the steps.
-/
theorem Steps.undone {Inv : State → Prop} {undo : Label → Label}
    (keeps : ∀ s label t, Inv s → step s label t → Inv t)
    (back : ∀ s label t, Inv s → step s label t → step t (undo label) s)
    (inv : Inv s) {labels : List Label} (steps : Steps step s labels t)
    : Inv t ∧ Steps step t (labels.reverse.map undo) s := by
  induction steps with
  | none => exact ⟨inv, .none⟩
  | more _ next ih =>
      obtain ⟨before, undone⟩ := ih
      refine ⟨keeps _ _ _ before next, ?_⟩
      rw [List.reverse_cons, List.map_append]
      exact undone.after (back _ _ _ before next)

-----------------------------------------------------------------------------------------
-- Machines
-----------------------------------------------------------------------------------------

variable {Op Out Err : Type}

/-- The outputs of a sequence of operations and the state it ends in. The first operation
that stops ends the sequence.
-/
def runAll (step : State → Op → Except Err (Out × State))
    : List Op → State → Except Err (List Out × State)
  | [], s => .ok ([], s)
  | op :: ops, s => do
      let (out, s) ← step s op
      let (outs, s) ← runAll step ops s
      .ok (out :: outs, s)

/-- Both computations stop with the same error, or answer the same with related states. -/
inductive SameOutcome (Related : State → State' → Prop)
    : Except Err (Out × State) → Except Err (Out × State') → Prop
  | stopped (err) : SameOutcome Related (.error err) (.error err)
  | answered {out s s'} (related : Related s s')
    : SameOutcome Related (.ok (out, s)) (.ok (out, s'))

/-- Computations with the same outcome stay so when both are continued alike. -/
theorem SameOutcome.bind {Out' : Type} {Related Later : State → State' → Prop}
    {first : Except Err (Out × State)} {first' : Except Err (Out × State')}
    {next : Out × State → Except Err (Out' × State)}
    {next' : Out × State' → Except Err (Out' × State')}
    (same : SameOutcome Related first first')
    (continued
      : ∀ out s s', Related s s' → SameOutcome Later (next (out, s)) (next' (out, s')))
    : SameOutcome Later (first >>= next) (first' >>= next') := by
  cases same with
  | stopped err => exact .stopped err
  | answered related => exact continued _ _ _ related

/-- What is mapped to related states has the same outcome. -/
theorem SameOutcome.of_map {Related : State → State' → Prop} {f : State → State'}
    {computed : Except Err (Out × State)}
    (related : ∀ out s, computed = .ok (out, s) → Related s (f s))
    : SameOutcome Related computed (Prod.map id f <$> computed) := by
  rcases computed with err | ⟨out, s⟩
  · exact .stopped err
  · exact .answered (related out s rfl)

/-- Computations with equal images have the same outcome up to the mapping. -/
theorem SameOutcome.of_map_eq {State'' : Type} {f : State → State''} {f' : State' → State''}
    {first : Except Err (Out × State)} {first' : Except Err (Out × State')}
    (same : Prod.map id f <$> first = Prod.map id f' <$> first')
    : SameOutcome (fun s s' => f s = f' s') first first' := by
  rcases first with err | ⟨out, s⟩ <;> rcases first' with err' | ⟨out', s'⟩
  · cases same
    exact .stopped err
  · cases same
  · cases same
  · obtain ⟨rfl, equal⟩ := Prod.mk.inj (Except.ok.inj same)
    exact .answered equal

/-- Outcomes may be related by less. -/
theorem SameOutcome.mono {Related Weaker : State → State' → Prop}
    {first : Except Err (Out × State)} {first' : Except Err (Out × State')}
    (same : SameOutcome Related first first') (weaken : ∀ s s', Related s s' → Weaker s s')
    : SameOutcome Weaker first first' := by
  cases same with
  | stopped err => exact .stopped err
  | answered related => exact .answered (weaken _ _ related)

theorem SameOutcome.trans {State'' : Type} {Related : State → State' → Prop}
    {Related' : State' → State'' → Prop} {first : Except Err (Out × State)}
    {second : Except Err (Out × State')} {third : Except Err (Out × State'')}
    (same : SameOutcome Related first second) (again : SameOutcome Related' second third)
    : SameOutcome (fun s s'' => ∃ s', Related s s' ∧ Related' s' s'') first third := by
  cases same with
  | stopped err =>
      cases again with
      | stopped => exact .stopped err
  | answered related =>
      cases again with
      | answered related' => exact .answered ⟨_, related, related'⟩

/-- Translated operations are as those of a machine that translates them. -/
theorem runAll_map {Op' : Type} (step : State → Op' → Except Err (Out × State)) (f : Op → Op')
    (ops : List Op) (s : State)
    : runAll step (ops.map f) s = runAll (fun s op => step s (f op)) ops s := by
  induction ops generalizing s with
  | nil => rfl
  | cons op ops ih => simp only [List.map_cons, runAll, ih]

/-- Machines that answer every operation alike answer every sequence alike, by induction on
the sequence with the relation between their states as the invariant.
-/
theorem runAll_sameOutcome {Related : State → State' → Prop}
    {step : State → Op → Except Err (Out × State)}
    {step' : State' → Op → Except Err (Out × State')} {Allowed : Op → Prop}
    (simulates
      : ∀ s s' op, Related s s' → Allowed op → SameOutcome Related (step s op) (step' s' op))
    {s : State} {s' : State'} (related : Related s s')
    {ops : List Op} (allowed : ∀ op ∈ ops, Allowed op)
    : SameOutcome Related (runAll step ops s) (runAll step' ops s') := by
  induction ops generalizing s s' with
  | nil => exact .answered related
  | cons op ops ih =>
      have first := simulates s s' op related (allowed op List.mem_cons_self)
      have rest : ∀ op ∈ ops, Allowed op := fun op member =>
        allowed op (List.mem_cons_of_mem _ member)
      refine first.bind (fun out next next' nextRelated => ?_)
      refine (ih nextRelated rest).bind (fun outs last last' lastRelated => ?_)
      exact .answered lastRelated

/-- The same for a relation that changes with every operation, up to a number of them. -/
theorem runAll_sameOutcome_upTo {Related : ℕ → State → State' → Prop} {bound : ℕ}
    {step : State → Op → Except Err (Out × State)}
    {step' : State' → Op → Except Err (Out × State')} {Allowed : Op → Prop}
    (simulates
      : ∀ n s s' op,
          n < bound
          → Related n s s'
          → Allowed op
          → SameOutcome (Related (n + 1)) (step s op) (step' s' op))
    {n : ℕ} {s : State} {s' : State'} (related : Related n s s') {ops : List Op}
    (allowed : ∀ op ∈ ops, Allowed op) (few : n + ops.length ≤ bound)
    : SameOutcome (Related (n + ops.length)) (runAll step ops s) (runAll step' ops s') := by
  induction ops generalizing n s s' with
  | nil => exact .answered related
  | cons op ops ih =>
      have shift : n + (op :: ops).length = n + 1 + ops.length := by
        rw [List.length_cons]
        omega
      rw [shift] at few ⊢
      have first := simulates n s s' op (by omega) related (allowed op List.mem_cons_self)
      have rest : ∀ op ∈ ops, Allowed op := fun op member =>
        allowed op (List.mem_cons_of_mem _ member)
      refine first.bind (fun out next next' nextRelated => ?_)
      refine (ih nextRelated rest few).bind (fun outs last last' lastRelated => ?_)
      exact .answered lastRelated

theorem runAll_cons_iff {step : State → Op → Except Err (Out × State)} {s last : State} {op : Op}
    {ops : List Op} {outs : List Out}
    : runAll step (op :: ops) s = .ok (outs, last)
      ↔ ∃ out between rest,
          step s op = .ok (out, between)
          ∧ runAll step ops between = .ok (rest, last)
          ∧ outs = out :: rest := by
  simp only [runAll, bind_eq_ok_iff, Prod.exists]
  constructor
  · intro ran
    obtain ⟨out, between, first, rest, final, later, same⟩ := ran
    cases same
    exact ⟨out, between, rest, first, later, rfl⟩
  · intro ran
    obtain ⟨out, between, rest, first, later, rfl⟩ := ran
    exact ⟨out, between, first, rest, last, later, rfl⟩

/-- The operations of a sequence with their answers, but for the idle ones. -/
def busy (Idle : Op → Out → Prop) [∀ op out, Decidable (Idle op out)] (ops : List Op)
    (outs : List Out)
    : List (Op × Out) :=
  (ops.zip outs).filter (fun call => ¬ Idle call.1 call.2)

/-- Operations that leave a view of the state as it was can be left out, if the others depend on
the view alone; by induction on the sequence, from states that look the same.
-/
theorem runAll_busy {View : Type} (view : State → View)
    {step : State → Op → Except Err (Out × State)} {Idle : Op → Out → Prop}
    [∀ op out, Decidable (Idle op out)]
    (unchanged : ∀ s op out t, step s op = .ok (out, t) → Idle op out → view t = view s)
    (alike
      : ∀ s s' op out t,
          view s = view s'
          → step s op = .ok (out, t)
          → ¬ Idle op out
          → ∃ t', step s' op = .ok (out, t') ∧ view t = view t')
    {ops : List Op} {outs : List Out} {s s' last : State} (same : view s = view s')
    (ran : runAll step ops s = .ok (outs, last))
    : ∃ last',
        runAll step ((busy Idle ops outs).map Prod.fst) s'
          = .ok ((busy Idle ops outs).map Prod.snd, last')
        ∧ view last = view last' := by
  induction ops generalizing s s' outs with
  | nil =>
      cases ran
      exact ⟨s', rfl, same⟩
  | cons op ops ih =>
      obtain ⟨out, between, rest, first, later, rfl⟩ := runAll_cons_iff.mp ran
      by_cases idle : Idle op out
      · have left : busy Idle (op :: ops) (out :: rest) = busy Idle ops rest := by
          simp [busy, idle]
        rw [left]
        exact ih ((unchanged _ _ _ _ first idle).trans same) later
      · have kept : busy Idle (op :: ops) (out :: rest) = (op, out) :: busy Idle ops rest := by
          simp [busy, idle]
        obtain ⟨between', first', same'⟩ := alike _ _ _ _ _ same first idle
        obtain ⟨last', later', end'⟩ := ih same' later
        rw [kept]
        exact ⟨last', runAll_cons_iff.mpr ⟨out, between', _, first', later', rfl⟩, end'⟩

/-- What holds before every operation of a sequence holds before the first and before those of the
rest; by where the sequence is cut.
-/
theorem runAll_before_cons_iff {step : State → Op → Except Err (Out × State)}
    {Before : State → Op → Prop} {s t : State} {op : Op} {out : Out} {ops : List Op}
    (first : step s op = .ok (out, t)) (before : Before s op)
    : (∀ front next back,
          op :: ops = front ++ next :: back
          → ∀ outs between, runAll step front s = .ok (outs, between) → Before between next)
      ↔ ∀ front next back,
          ops = front ++ next :: back
          → ∀ outs between, runAll step front t = .ok (outs, between) → Before between next := by
  constructor
  · intro all front next back split outs between ran
    exact all (op :: front) next back (congrArg (List.cons op) split) (out :: outs) between
      (runAll_cons_iff.mpr ⟨out, t, outs, first, ran, rfl⟩)
  · intro all front next back split outs between ran
    cases front with
    | nil =>
        cases split
        cases ran
        exact before
    | cons head front =>
        cases split
        obtain ⟨_, _, rest, again, later, _⟩ := runAll_cons_iff.mp ran
        cases first.symm.trans again
        exact all front next back rfl rest between later

/-- Machines that agree on the first operation agree on a sequence if they do on its rest. -/
theorem runAll_agree_cons_iff {step : State → Op → Except Err (Out × State)}
    {step' : State' → Op → Except Err (Out × State')} {Good : Op → Out → Prop} {s t : State}
    {s' t' : State'} {op : Op} {out : Out} {ops : List Op} (first : step s op = .ok (out, t))
    (first' : step' s' op = .ok (out, t')) (goodOut : Good op out)
    : (∃ outs last last',
          runAll step (op :: ops) s = .ok (outs, last)
          ∧ runAll step' (op :: ops) s' = .ok (outs, last')
          ∧ List.Forall₂ Good (op :: ops) outs)
      ↔ ∃ outs last last',
          runAll step ops t = .ok (outs, last)
          ∧ runAll step' ops t' = .ok (outs, last')
          ∧ List.Forall₂ Good ops outs := by
  constructor
  · intro agree
    obtain ⟨outs, last, last', ran, ran', good⟩ := agree
    obtain ⟨_, _, rest, again, later, rfl⟩ := runAll_cons_iff.mp ran
    obtain ⟨_, _, _, again', later', same⟩ := runAll_cons_iff.mp ran'
    cases same
    cases first.symm.trans again
    cases first'.symm.trans again'
    exact ⟨rest, last, last', later, later', (List.forall₂_cons.mp good).2⟩
  · intro agree
    obtain ⟨rest, last, last', later, later', good⟩ := agree
    exact ⟨out :: rest, last, last', runAll_cons_iff.mpr ⟨out, t, rest, first, later, rfl⟩,
      runAll_cons_iff.mpr ⟨out, t', rest, first', later', rfl⟩, .cons goodOut good⟩

/-- Machines whose answers agree and are good except for operations that expose them agree on
the sequences in which no operation does; by induction on the sequence.
-/
theorem runAll_agree_iff {Related : State → State' → Prop}
    {step : State → Op → Except Err (Out × State)}
    {step' : State' → Op → Except Err (Out × State')} {Exposes : State → Op → Prop}
    {Good : Op → Out → Prop}
    (hides
      : ∀ s s' op,
          Related s s'
          → ¬ Exposes s op
          → ∃ out t t',
              step s op = .ok (out, t)
              ∧ step' s' op = .ok (out, t')
              ∧ Related t t'
              ∧ Good op out)
    (exposes
      : ∀ s s' op,
          Related s s'
          → Exposes s op
          → ∀ out t t', step s op = .ok (out, t) → step' s' op = .ok (out, t') → ¬ Good op out)
    {s : State} {s' : State'} (related : Related s s') (ops : List Op)
    : (∃ outs last last',
          runAll step ops s = .ok (outs, last)
          ∧ runAll step' ops s' = .ok (outs, last')
          ∧ List.Forall₂ Good ops outs)
      ↔ ∀ front op back,
          ops = front ++ op :: back
          → ∀ outs between,
              runAll step front s = .ok (outs, between) → ¬ Exposes between op := by
  induction ops generalizing s s' with
  | nil =>
      refine iff_of_true ⟨[], s, s', rfl, rfl, .nil⟩ (fun front op back split => ?_)
      exact absurd split.symm (List.append_ne_nil_of_right_ne_nil front (List.cons_ne_nil op back))
  | cons op ops ih =>
      rcases Classical.em (Exposes s op) with exposed | hidden
      · refine iff_of_false (fun agree => ?_) (fun none => none [] op ops rfl [] s rfl exposed)
        obtain ⟨outs, last, last', ran, ran', good⟩ := agree
        obtain ⟨out, t, rest, first, _, rfl⟩ := runAll_cons_iff.mp ran
        obtain ⟨out', t', rest', first', _, same⟩ := runAll_cons_iff.mp ran'
        cases same
        exact exposes s s' op related exposed out t t' first first' (List.forall₂_cons.mp good).1
      · obtain ⟨out, t, t', first, first', relatedNext, goodOut⟩ := hides s s' op related hidden
        rw [runAll_agree_cons_iff first first' goodOut]
        exact (ih relatedNext).trans (runAll_before_cons_iff first hidden).symm

end CachingFileSystem.Transitions
