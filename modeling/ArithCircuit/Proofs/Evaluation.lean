import ArithCircuit.Evaluation
import ArithCircuit.Proofs.Denotation
import ArithCircuit.Proofs.Schedule

set_option autoImplicit false

namespace ArithCircuit

def Formula.evalFromRight {T : Type} (domain : Domain T) (inputs : String → Option T) :
    List Formula → Except Error (List T)
  | [] => .ok []
  | first :: rest => do
    let values ← evalFromRight domain inputs rest
    let value ← first.eval domain inputs
    return value :: values

theorem Formula.evalFromRight_cons {T : Type} {domain : Domain T} {inputs : String → Option T}
    {rest : List Formula} {values : List T} (evaluates : evalFromRight domain inputs rest = .ok values)
    (first : Formula) :
    evalFromRight domain inputs (first :: rest) =
      (first.eval domain inputs).map (· :: values) := by
  rw [evalFromRight, evaluates]
  cases first.eval domain inputs <;> rfl

theorem Formula.eval_error_of_children {T : Type} {domain : Domain T} {inputs : String → Option T}
    {formula : Formula} {error : Error}
    (fails : evalFromRight domain inputs formula.children = .error error) :
    formula.eval domain inputs = .error error := by
  cases formula with
  | constant value => contradiction
  | input name => contradiction
  | binary op left right =>
    simp only [children, evalFromRight, eval] at fails ⊢
    cases second : right.eval domain inputs with
    | error missing =>
      rw [second] at fails
      obtain rfl : missing = error := Except.error.inj fails
      rfl
    | ok y =>
      rw [second] at fails
      cases first : left.eval domain inputs with
      | error missing =>
        rw [first] at fails
        obtain rfl : missing = error := Except.error.inj fails
        rfl
      | ok x =>
        rw [first] at fails
        contradiction
  | shift direction operand amount =>
    simp only [children, evalFromRight, eval] at fails ⊢
    cases value : operand.eval domain inputs with
    | error missing =>
      rw [value] at fails
      obtain rfl : missing = error := Except.error.inj fails
      rfl
    | ok x =>
      rw [value] at fails
      contradiction

namespace Evaluator

section Running

variable {T α β : Type}

theorem run_after {first : Run T α} {rest : α → Run T β} {start next : Evaluator T} {result : α}
    (gives : first.run start = some (.ok result, next)) :
    (first >>= rest).run start = (rest result).run next := by
  rw [ExceptT.run_bind]
  change Option.bind (first.run start) _ = _
  rw [gives]
  rfl

theorem run_after_error {first : Run T α} {rest : α → Run T β} {start next : Evaluator T}
    {error : Error} (gives : first.run start = some (.error error, next)) :
    (first >>= rest).run start = some (.error error, next) := by
  rw [ExceptT.run_bind]
  change Option.bind (first.run start) _ = _
  rw [gives]
  rfl

theorem run_lookup {lookup : Option α} {result : α} (start : Evaluator T)
    (found : lookup = some result) :
    (liftM lookup : Run T α).run start = some (.ok result, start) := by
  rw [found]
  rfl

end Running

variable {T α β : Type} {domain : Domain T} {inputs : String → Option T} {circuit : Circuit}

def Right (domain : Domain T) (inputs : String → Option T) (circuit : Circuit)
    (evaluator : Evaluator T) : Prop :=
  ∀ id value, evaluator.values[id]? = some value →
    ∃ formula, circuit.Denotes id formula ∧ formula.eval domain inputs = .ok value

theorem empty_right : Right domain inputs circuit .empty := by
  intro id value found
  simp [empty] at found

theorem enter_right {evaluator : Evaluator T} {id : Nat} {formula : Formula} {value : T}
    (right : Right domain inputs circuit evaluator) (denotes : circuit.Denotes id formula)
    (evaluates : formula.eval domain inputs = .ok value) (lifted : List Nat) :
    Right domain inputs circuit { evaluator.enter id value with lifted } := by
  intro other known found
  rcases found_in_insert found with ⟨rfl, rfl⟩ | older
  · exact ⟨formula, denotes, evaluates⟩
  · exact right other known older

theorem value_of_mem {evaluator : Evaluator T} {id : Nat} {formula : Formula}
    (right : Right domain inputs circuit evaluator) (denotes : circuit.Denotes id formula)
    (known : id ∈ evaluator.values) :
    ∃ value, evaluator.values[id]? = some value ∧ formula.eval domain inputs = .ok value := by
  have found := Std.HashMap.getElem?_eq_some_getElem known
  obtain ⟨other, also, evaluates⟩ := right id _ found
  obtain rfl := Option.some.inj (also.symm.trans denotes)
  exact ⟨_, found, evaluates⟩

-- What is left behind by work that ought to end like `expected` and to value the nodes `added`.
structure Settles (domain : Domain T) (inputs : String → Option T) (circuit : Circuit)
    (start : Evaluator T) (expected : Except Error α) (added : List Nat)
    (reply : Except Error Unit) (next : Evaluator T) : Prop where
  right : Right domain inputs circuit next
  reply_eq : reply = expected.map fun _ => ()
  values : ∀ value, expected = .ok value →
    ∀ id, id ∈ next.values ↔ id ∈ start.values ∨ id ∈ added

theorem Settles.map {start next : Evaluator T} {expected : Except Error α} {added : List Nat}
    {reply : Except Error Unit}
    (settled : Settles domain inputs circuit start expected added reply next) (f : α → β) :
    Settles domain inputs circuit start (expected.map f) added reply next where
  right := settled.right
  reply_eq := by
    rw [settled.reply_eq]
    cases expected <;> rfl
  values := by
    intro value same
    cases expected with
    | error error => contradiction
    | ok result => exact settled.values result rfl

theorem Settles.trans {start middle next : Evaluator T} {value : α} {expected : Except Error β}
    {early late : List Nat} {first second : Except Error Unit}
    (begun : Settles domain inputs circuit start (.ok value) early first middle)
    (ended : Settles domain inputs circuit middle expected late second next) :
    Settles domain inputs circuit start expected (late ++ early) second next where
  right := ended.right
  reply_eq := ended.reply_eq
  values := by
    intro other same id
    rw [ended.values other same id, begun.values value rfl id, List.mem_append, or_assoc,
      or_comm (a := id ∈ early)]

theorem Settles.failed {start next : Evaluator T} {error : Error} {expected : Except Error β}
    {early added : List Nat} {reply : Except Error Unit}
    (begun : Settles domain inputs circuit start (.error error : Except Error α) early reply next)
    (fails : expected = .error error) :
    Settles domain inputs circuit start expected added (.error error) next where
  right := begun.right
  reply_eq := by rw [fails]; rfl
  values := by
    intro value same
    rw [fails] at same
    contradiction

theorem enter_settles {evaluator : Evaluator T} {id : Nat} {formula : Formula} {value : T}
    (right : Right domain inputs circuit evaluator) (denotes : circuit.Denotes id formula)
    (evaluates : formula.eval domain inputs = .ok value) (lifted : List Nat) :
    Settles domain inputs circuit evaluator (formula.eval domain inputs) [id] (.ok ())
      { evaluator.enter id value with lifted } where
  right := enter_right right denotes evaluates lifted
  reply_eq := by rw [evaluates]; rfl
  values := by
    intro _ _ other
    simp only [enter, Std.HashMap.mem_insert, beq_iff_eq, List.mem_singleton]
    exact ⟨fun known => known.symm.imp_right Eq.symm, fun known => known.symm.imp_left Eq.symm⟩

def work (domain : Domain T) (inputs : String → Option T) (circuit : Circuit) (order : List Nat) :
    StateT (Evaluator T) Option (Except Error Unit) :=
  (forM order (compute domain inputs circuit)).run

theorem work_append {before after : List Nat} {start : Evaluator T}
    {post : Except Error Unit → Evaluator T → Prop}
    (yields : Yields (work domain inputs circuit before) start fun reply middle =>
      (reply = .ok () → Yields (work domain inputs circuit after) middle post) ∧
        ∀ error, reply = .error error → post (.error error) middle) :
    Yields (work domain inputs circuit (before ++ after)) start post := by
  unfold work at *
  rw [List.forM_append, ExceptT.run_bind]
  refine yields.bind ?_
  rintro (error | ⟨⟩) middle ⟨continues, fails⟩
  · exact .intro rfl (fails error rfl)
  · exact continues rfl

theorem work_singleton (id : Nat) :
    work domain inputs circuit [id] = (compute domain inputs circuit id).run := by
  unfold work
  rw [List.forM_cons, List.forM_nil, bind_pure_unit]

theorem compute_settles {evaluator : Evaluator T} {id : Nat} {formula : Formula}
    (right : Right domain inputs circuit evaluator) (denotes : circuit.Denotes id formula)
    (known : ∀ child ∈ circuit.children id, child ∈ evaluator.values) :
    Yields (work domain inputs circuit [id]) evaluator
      (Settles domain inputs circuit evaluator (formula.eval domain inputs) [id]) := by
  obtain ⟨node, found, layer⟩ := Circuit.denotes_iff.mp denotes
  have start : (get : Run T (Evaluator T)).run evaluator = some (.ok evaluator, evaluator) := rfl
  rw [Circuit.children_of_node? found] at known
  rw [work_singleton]
  unfold Yields compute
  rw [run_after start, run_after (run_lookup evaluator found)]
  cases node with
  | constant value =>
    obtain rfl := Option.some.inj layer
    exact ⟨.ok (), _, rfl, enter_settles right denotes rfl (id :: evaluator.lifted)⟩
  | input name =>
    obtain rfl := Option.some.inj layer
    cases bound : inputs name with
    | some value =>
      have evaluates : (Formula.input name).eval domain inputs = .ok value := by
        simp only [Formula.eval, bound]
      exact ⟨.ok (), _, by simp only [bound]; rfl,
        enter_settles right denotes evaluates evaluator.lifted⟩
    | none =>
      have fails : (Formula.input name).eval domain inputs = .error (.missingInput name) := by
        simp only [Formula.eval, bound]
      refine ⟨.error (.missingInput name), evaluator, by simp only [bound]; rfl, right,
        by rw [fails]; rfl, ?_⟩
      intro value same
      rw [fails] at same
      contradiction
  | binary op left right' =>
    obtain ⟨first, second, rfl, leftDenotes, rightDenotes⟩ := Circuit.denotes_binary found denotes
    obtain ⟨x, leftFound, leftEval⟩ :=
      value_of_mem right leftDenotes (known left (by simp [Node.children]))
    obtain ⟨y, rightFound, rightEval⟩ :=
      value_of_mem right rightDenotes (known right' (by simp [Node.children]))
    have evaluates : (Formula.binary op first second).eval domain inputs =
        .ok (domain.binary op x y) := by
      simp only [Formula.eval, leftEval, rightEval]
      rfl
    exact ⟨.ok (), _,
      (run_after (run_lookup evaluator leftFound)).trans
        (run_after (run_lookup evaluator rightFound)),
      enter_settles right denotes evaluates evaluator.lifted⟩
  | shift direction operand amount =>
    obtain ⟨inner, rfl, operandDenotes⟩ := Circuit.denotes_shift found denotes
    obtain ⟨x, operandFound, operandEval⟩ :=
      value_of_mem right operandDenotes (known operand (by simp [Node.children]))
    have evaluates : (Formula.shift direction inner amount).eval domain inputs =
        .ok (domain.shift direction x amount) := by
      simp only [Formula.eval, operandEval]
      rfl
    exact ⟨.ok (), _, run_after (run_lookup evaluator operandFound),
      enter_settles right denotes evaluates evaluator.lifted⟩

theorem settles_append {evaluator : Evaluator T} {first : Except Error α}
    {expected : Except Error β} {early late : List Nat}
    (begins : Yields (work domain inputs circuit early.reverse) evaluator
      (Settles domain inputs circuit evaluator first early))
    (fails : ∀ error, first = .error error → expected = .error error)
    (continues : ∀ value middle, first = .ok value → Right domain inputs circuit middle →
      (∀ id, id ∈ middle.values ↔ id ∈ evaluator.values ∨ id ∈ early) →
      Yields (work domain inputs circuit late.reverse) middle
        (Settles domain inputs circuit middle expected late)) :
    Yields (work domain inputs circuit (late ++ early).reverse) evaluator
      (Settles domain inputs circuit evaluator expected (late ++ early)) := by
  rw [List.reverse_append]
  refine work_append (begins.mono fun reply middle settled => ?_)
  have same := settled.reply_eq
  cases first with
  | error error =>
    refine ⟨fun well => by rw [well] at same; contradiction, fun other bad => ?_⟩
    rw [bad] at same
    obtain rfl := Except.error.inj same
    exact settled.failed (fails other rfl)
  | ok value =>
    refine ⟨fun _ => ?_, fun error bad => by rw [bad] at same; contradiction⟩
    exact (continues value middle rfl settled.right (settled.values value rfl)).mono
      fun _ _ ended => settled.trans ended

section Visiting

variable {done : Nat → Bool}

def VisitSettles (domain : Domain T) (inputs : String → Option T) (circuit : Circuit)
    (done : Nat → Bool) (bound id : Nat) : Prop :=
  ∀ {formula : Formula}, circuit.Denotes id formula →
    ∀ {schedule : Schedule}, schedule.Valid circuit.children done → ∀ {added : List Nat},
      (Schedule.visit circuit.children done bound id schedule).latestFirst =
        added ++ schedule.latestFirst →
      ∀ {evaluator : Evaluator T}, Right domain inputs circuit evaluator →
        (∀ other, other ∈ evaluator.values ↔ schedule.Settled done other) →
        Yields (work domain inputs circuit added.reverse) evaluator
          (Settles domain inputs circuit evaluator (formula.eval domain inputs) added)

theorem children_settle {bound : Nat} {schedule : Schedule} {evaluator : Evaluator T}
    (valid : schedule.Valid circuit.children done) (right : Right domain inputs circuit evaluator)
    (known : ∀ other, other ∈ evaluator.values ↔ schedule.Settled done other)
    {children : List Nat} {formulas : List Formula}
    (denotes : List.Forall₂ circuit.Denotes children formulas)
    (smaller : ∀ child ∈ children, child < bound)
    (each : ∀ child ∈ children, VisitSettles domain inputs circuit done bound child)
    {added : List Nat}
    (listed : (children.foldr (Schedule.visit circuit.children done bound) schedule).latestFirst =
      added ++ schedule.latestFirst) :
    Yields (work domain inputs circuit added.reverse) evaluator
      (Settles domain inputs circuit evaluator (Formula.evalFromRight domain inputs formulas)
        added) := by
  induction denotes generalizing added with
  | nil =>
    obtain rfl : added = [] := List.self_eq_append_left.mp listed
    exact .intro rfl ⟨right, rfl, by simp⟩
  | @cons child formula children formulas first rest ih =>
    have earlier : ∀ id, ∀ dependency ∈ circuit.children id, dependency < id :=
      fun _ _ => circuit.lt_of_mem_children
    have later : ∀ other ∈ children, other < bound :=
      fun other member => smaller other (by simp [member])
    obtain ⟨visited, _⟩ := Schedule.visit_all_visited earlier valid children later
    obtain ⟨early, earlyListed, _⟩ := visited.added
    obtain ⟨next, _⟩ :=
      Schedule.visit_visited earlier bound (smaller child (by simp)) visited.valid
    obtain ⟨late, lateListed, _⟩ := next.added
    obtain rfl : added = late ++ early := by
      refine List.append_cancel_right (listed.symm.trans ?_)
      rw [List.foldr_cons, lateListed, earlyListed, List.append_assoc]
    refine settles_append
      (ih later (fun other member => each other (by simp [member])) earlyListed) ?_ ?_
    · intro error fails
      simp only [Formula.evalFromRight, fails]
      rfl
    · intro values middle evaluates middleRight middleValues
      have middleKnown := fun other => (middleValues other).trans
        ((or_congr_left (known other)).trans (Schedule.settled_append earlyListed other).symm)
      have ends := each child (by simp) first visited.valid lateListed middleRight middleKnown
      rw [Formula.evalFromRight_cons evaluates]
      exact ends.mono fun _ _ settled => settled.map _

-- The induction is on the bound of the visit: a node is planned after its operands.
theorem visit_settles (bound : Nat) {id : Nat} (below : id < bound) :
    VisitSettles domain inputs circuit done bound id := by
  induction bound generalizing id with
  | zero => omega
  | succ bound ih =>
    intro formula denotes schedule valid added listed evaluator right known
    unfold Schedule.visit at listed
    by_cases planned : done id || schedule.planned.contains id
    · rw [if_pos planned] at listed
      obtain rfl : added = [] := List.self_eq_append_left.mp listed
      have present : id ∈ evaluator.values := by
        rw [known id]
        rcases Bool.or_eq_true_iff.mp planned with isDone | isPlanned
        · exact .inl isDone
        · exact .inr ((valid.planned id).mp (Std.HashSet.contains_iff_mem.mp isPlanned))
      obtain ⟨value, _, evaluates⟩ := value_of_mem right denotes present
      exact .intro rfl ⟨right, by rw [evaluates]; rfl, by simp⟩
    · rw [if_neg planned] at listed
      obtain ⟨node, found, _⟩ := Circuit.denotes_iff.mp denotes
      have smaller : ∀ child ∈ circuit.children id, child < bound := by
        intro child member
        have := circuit.lt_of_mem_children member
        omega
      obtain ⟨visited, settled⟩ := Schedule.visit_all_visited
        (fun _ _ => circuit.lt_of_mem_children) valid _ smaller
      obtain ⟨early, earlyListed, _⟩ := visited.added
      obtain rfl : added = [id] ++ early := by
        refine List.append_cancel_right (listed.symm.trans ?_)
        rw [Schedule.add, earlyListed]
        rfl
      have operands := Circuit.denotes_children found denotes
      rw [← Circuit.children_of_node? found] at operands
      refine settles_append (children_settle valid right known operands smaller
        (fun child member => ih (smaller child member)) earlyListed) ?_ ?_
      · exact fun error fails => Formula.eval_error_of_children fails
      · intro values middle _ middleRight middleValues
        refine compute_settles middleRight denotes fun child member => ?_
        rw [middleValues child, known child, ← Schedule.settled_append earlyListed]
        exact settled child member

end Visiting

theorem eval_yields {evaluator : Evaluator T} {root : Nat} {formula : Formula}
    (right : Right domain inputs circuit evaluator) (denotes : circuit.Denotes root formula) :
    Yields (eval domain inputs circuit root).run evaluator fun reply next =>
      reply = formula.eval domain inputs ∧ Right domain inputs circuit next := by
  have earlier := fun parent => @circuit.lt_of_mem_children parent
  have start : (get : Run T (Evaluator T)).run evaluator = some (.ok evaluator, evaluator) := rfl
  obtain ⟨visited, settled⟩ := Schedule.visit_visited earlier (root + 1) (Nat.lt_succ_self root)
    (Schedule.empty_valid : Schedule.Valid circuit.children evaluator.values.contains .empty)
  obtain ⟨added, listed, _⟩ := visited.added
  have order : schedule circuit.children evaluator.values.contains root = added.reverse := by
    rw [schedule, listed]
    simp [Schedule.empty]
  have works := visit_settles (root + 1) (Nat.lt_succ_self root) denotes Schedule.empty_valid listed
    right (fun other => by simp [Schedule.Settled, Schedule.empty])
  obtain ⟨reply, next, gives, finished⟩ := works
  unfold Yields eval
  rw [run_after start]
  simp only [order]
  cases evaluates : formula.eval domain inputs with
  | error error =>
    have same := finished.reply_eq
    rw [evaluates] at same
    subst same
    exact ⟨.error error, next, run_after_error gives, rfl, finished.right⟩
  | ok value =>
    have same := finished.reply_eq
    rw [evaluates] at same
    subst same
    have present : root ∈ next.values := by
      rw [finished.values value evaluates]
      rcases settled with known | member
      · exact .inl (Std.HashMap.contains_iff_mem.mp known)
      · rw [listed, Schedule.empty, List.append_nil] at member
        exact .inr member
    obtain ⟨other, lookup, also⟩ := value_of_mem finished.right denotes present
    obtain rfl := Except.ok.inj (also.symm.trans evaluates)
    refine ⟨.ok other, next, ?_, rfl, finished.right⟩
    have finally_ : (get : Run T (Evaluator T)).run next = some (.ok next, next) := rfl
    exact (run_after gives).trans ((run_after finally_).trans (run_lookup next lookup))

theorem evalAll_yields {evaluator : Evaluator T} {roots : List Nat} {formulas : List Formula}
    (right : Right domain inputs circuit evaluator)
    (denote : List.Forall₂ circuit.Denotes roots formulas) :
    Yields (evalAll domain inputs circuit roots).run evaluator fun reply next =>
      reply = formulas.mapM (Formula.eval domain inputs) ∧ Right domain inputs circuit next := by
  unfold evalAll
  induction denote generalizing evaluator with
  | nil => exact .intro rfl ⟨rfl, right⟩
  | cons denotes _ ih =>
    obtain ⟨reply, next, gives, same, nextRight⟩ := eval_yields right denotes
    rw [List.mapM_cons, List.mapM_cons, ← same]
    cases reply with
    | error error => exact .intro (run_after_error gives) ⟨rfl, nextRight⟩
    | ok value =>
      obtain ⟨replies, last, ends, whole, lastRight⟩ := ih nextRight
      rw [← whole]
      cases replies with
      | error error =>
        exact .intro ((run_after gives).trans (run_after_error ends)) ⟨rfl, lastRight⟩
      | ok values => exact .intro ((run_after gives).trans (run_after ends)) ⟨rfl, lastRight⟩

end Evaluator

theorem Circuit.eval?_of_denotes {T : Type} (domain : Domain T) (inputs : String → Option T)
    {circuit : Circuit} {root : Nat} {formula : Formula} (denotes : circuit.Denotes root formula) :
    circuit.eval? domain inputs root = some (formula.eval domain inputs) := by
  have start : Evaluator.Right domain inputs circuit .empty := Evaluator.empty_right
  obtain ⟨reply, next, gives, rfl, _⟩ := Evaluator.eval_yields start denotes
  unfold eval? StateT.run'
  rw [gives]
  rfl

theorem Circuit.eval?_of_extends {T : Type} (domain : Domain T) (inputs : String → Option T)
    {old new : Circuit} (extended : old.Extends new) {root : Nat} (inRange : root < old.size) :
    new.eval? domain inputs root = old.eval? domain inputs root := by
  obtain ⟨formula, denotes⟩ := old.formula?_of_lt_size inRange
  rw [eval?_of_denotes domain inputs denotes,
    eval?_of_denotes domain inputs (denotes_of_extends extended denotes)]

end ArithCircuit
