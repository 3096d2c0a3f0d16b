import ArithCircuit.Proofs.Equality
import ArithCircuit.Proofs.WorkStack

set_option autoImplicit false

namespace ArithCircuit

namespace EqualityTable

def known? (table : EqualityTable) (left right : Nat) : Option Bool :=
  if left = right then some true else table.verdict? left right

inductive Step where
  | done (verdict : Bool)
  | need (left right : Nat)

def lookup (table : EqualityTable) (left right : Nat) : Step :=
  match table.known? left right with
  | some verdict => .done verdict
  | none => .need left right

def both (table : EqualityTable) (a a' b b' : Nat) : Step :=
  match table.lookup a a' with
  | .done true => table.lookup b b'
  | other => other

def step (table : EqualityTable) : Node → Node → Step
  | .constant v, .constant w => .done (v == w)
  | .input m, .input n => .done (m == n)
  | .binary op a b, .binary op' a' b' =>
    if op = op' then
      match table.both a a' b b' with
      | .done false => table.both a b' b a'
      | other => other
    else .done false
  | .shift direction a amount, .shift direction' a' amount' =>
    if direction = direction' ∧ amount = amount' then table.lookup a a' else .done false
  | _, _ => .done false

-- `stack` starts with its top, and `compared` with the pair that was examined last.
structure Frame where
  stack : List (Nat × Nat)
  compared : List (Nat × Nat)
  table : EqualityTable

def turn (circuit : Circuit) (frame : Frame) : Option (Except Error Unit × Frame) :=
  match frame.stack with
  | [] => some (.ok (), frame)
  | (left, right) :: below =>
    if (frame.table.known? left right).isSome then some (.ok (), { frame with stack := below })
    else
      (circuit.node? left).bind fun first => (circuit.node? right).map fun second =>
        match frame.table.step first second with
        | .done verdict =>
          (.ok (), ⟨below, key left right :: frame.compared, frame.table.enter left right verdict⟩)
        | .need p q => (.ok (), { frame with stack := (p, q) :: (left, right) :: below })

section Plans

inductive Plan where
  | answer (verdict : Bool)
  | ask (left right : Nat) (next : Bool → Plan)

namespace Plan

def run (same : Nat → Nat → StateM EqualityTable Bool) : Plan → StateM EqualityTable Bool
  | answer verdict => return verdict
  | ask left right next => do (next (← same left right)).run same

def step (table : EqualityTable) : Plan → Step
  | answer verdict => .done verdict
  | ask left right next =>
    match table.known? left right with
    | some verdict => (next verdict).step table
    | none => .need left right

def both (a a' b b' : Nat) (whenFalse : Plan) : Plan :=
  ask a a' fun first =>
    if first then ask b b' fun second => if second then answer true else whenFalse
    else whenFalse

inductive Within (allowed : Nat → Nat → Prop) : Plan → Prop where
  | answer (verdict : Bool) : Within allowed (answer verdict)
  | ask {left right : Nat} {next : Bool → Plan} (asks : allowed left right)
      (rest : ∀ verdict, Within allowed (next verdict)) : Within allowed (ask left right next)

theorem both_within {allowed : Nat → Nat → Prop} {a a' b b' : Nat} {whenFalse : Plan}
    (first : allowed a a') (second : allowed b b') (rest : whenFalse.Within allowed) :
    (both a a' b b' whenFalse).Within allowed := by
  refine .ask first fun verdict => ?_
  cases verdict with
  | false => exact rest
  | true =>
    refine .ask second fun verdict => ?_
    cases verdict with
    | false => exact rest
    | true => exact .answer true

end Plan

def plan : Node → Node → Plan
  | .constant v, .constant w => .answer (v == w)
  | .input m, .input n => .answer (m == n)
  | .binary op a b, .binary op' a' b' =>
    if op = op' then .both a a' b b' (.both a b' b a' (.answer false)) else .answer false
  | .shift direction a amount, .shift direction' a' amount' =>
    if direction = direction' ∧ amount = amount' then .ask a a' .answer else .answer false
  | _, _ => .answer false

theorem plan_within (first second : Node) :
    (plan first second).Within fun p q => p ∈ first.children ∧ q ∈ second.children := by
  cases first with
  | constant => cases second <;> exact .answer _
  | input => cases second <;> exact .answer _
  | binary op a b =>
    cases second with
    | constant | input | shift => exact .answer _
    | binary op' a' b' =>
      rw [plan]
      by_cases same : op = op'
      · rw [if_pos same]
        exact Plan.both_within (by simp [Node.children]) (by simp [Node.children])
          (Plan.both_within (by simp [Node.children]) (by simp [Node.children]) (.answer false))
      · rw [if_neg same]
        exact .answer false
  | shift direction a amount =>
    cases second with
    | constant | input | binary => exact .answer _
    | shift direction' a' amount' =>
      rw [plan]
      by_cases same : direction = direction' ∧ amount = amount'
      · rw [if_pos same]
        exact .ask (by simp [Node.children]) .answer
      · rw [if_neg same]
        exact .answer false

theorem Plan.run_ask (same : Nat → Nat → StateM EqualityTable Bool) (left right : Nat)
    (next : Bool → Plan) (table : EqualityTable) : (ask left right next).run same table =
      (next (same left right table).1).run same (same left right table).2 := rfl

theorem Plan.run_both (same : Nat → Nat → StateM EqualityTable Bool) (a a' b b' : Nat)
    (whenFalse : Plan) : (Plan.both a a' b b' whenFalse).run same = (do
      if ← same a a' <&&> same b b' then return true
      whenFalse.run same) := by
  have reads : ∀ (p q : Nat) (rest : Bool → StateM EqualityTable Bool) (table : EqualityTable),
      (same p q >>= rest) table = rest (same p q table).1 (same p q table).2 := fun _ _ _ _ => rfl
  funext table
  simp only [Plan.both, Plan.run, andM, bind_assoc, reads]
  cases (same a a' table).1 with
  | false => rfl
  | true =>
    change (same b b' >>= _) _ = (same b b' >>= _) _
    rw [reads, reads]
    cases (same b b' (same a a' table).2).1 <;> rfl

theorem examine_eq (same : Nat → Nat → StateM EqualityTable Bool) (first second : Node) :
    examine same first second = (plan first second).run same := by
  cases first with
  | constant => cases second <;> rfl
  | input => cases second <;> rfl
  | binary op a b =>
    cases second with
    | constant | input | shift => rfl
    | binary op' a' b' =>
      rw [examine, plan]
      by_cases sameOp : op = op'
      · rw [if_pos sameOp, if_pos sameOp]
        rw [Plan.run_both, Plan.run_both]
        refine bind_congr fun straight => ?_
        cases straight with
        | true => rfl
        | false =>
          refine (bind_pure _).symm.trans (bind_congr fun crossed => ?_)
          cases crossed <;> rfl
      · rw [if_neg sameOp, if_neg sameOp]
        rfl
  | shift direction a amount =>
    cases second with
    | constant | input | binary => rfl
    | shift direction' a' amount' =>
      rw [examine, plan]
      by_cases sameShift : direction = direction' ∧ amount = amount'
      · rw [if_pos sameShift, if_pos sameShift]
        rfl
      · rw [if_neg sameShift, if_neg sameShift]
        rfl

theorem Plan.step_ask_answer (table : EqualityTable) (left right : Nat) :
    (ask left right answer).step table = table.lookup left right := by
  rw [step, lookup]
  cases table.known? left right <;> rfl

theorem Plan.step_both (table : EqualityTable) (a a' b b' : Nat) (whenFalse : Plan) :
    (both a a' b b' whenFalse).step table =
      match table.both a a' b b' with
      | .done false => whenFalse.step table
      | other => other := by
  rw [both, step, EqualityTable.both, lookup]
  cases table.known? a a' with
  | none => rfl
  | some first =>
    cases first with
    | false => rfl
    | true =>
      change (ask b b' _).step table = _
      rw [step, lookup]
      cases table.known? b b' with
      | none => rfl
      | some second => cases second <;> rfl

theorem step_eq (table : EqualityTable) (first second : Node) :
    table.step first second = (plan first second).step table := by
  cases first with
  | constant => cases second <;> rfl
  | input => cases second <;> rfl
  | binary op a b =>
    cases second with
    | constant | input | shift => rfl
    | binary op' a' b' =>
      rw [step, plan]
      by_cases sameOp : op = op'
      · rw [if_pos sameOp, if_pos sameOp, Plan.step_both, Plan.step_both]
        have decides : ∀ other : Step,
            (match other with
              | .done false => (Plan.answer false).step table
              | other => other) = other := by
          intro other
          cases other with
          | need => rfl
          | done verdict => cases verdict <;> rfl
        rw [decides]
      · rw [if_neg sameOp, if_neg sameOp]
        rfl
  | shift direction a amount =>
    cases second with
    | constant | input | binary => rfl
    | shift direction' a' amount' =>
      rw [step, plan]
      by_cases sameShift : direction = direction' ∧ amount = amount'
      · rw [if_pos sameShift, if_pos sameShift]
        exact (Plan.step_ask_answer table a a').symm
      · rw [if_neg sameShift, if_neg sameShift]
        rfl

end Plans

structure Compared (bound : Nat) (table next : EqualityTable) (fresh : List (Nat × Nat)) : Prop where
  kept : ∀ (pair : Nat × Nat) (verdict : Bool), table.verdicts[pair]? = some verdict →
    next.verdicts[pair]? = some verdict
  once : fresh.Nodup
  absent : ∀ pair ∈ fresh, pair ∉ table.verdicts
  entered : ∀ pair, pair ∈ next.verdicts ↔ pair ∈ table.verdicts ∨ pair ∈ fresh
  below : ∀ pair ∈ fresh, pair.2 < bound

variable {bound wider : Nat} {table middle next : EqualityTable} {early late fresh : List (Nat × Nat)}

theorem compared_refl (bound : Nat) (table : EqualityTable) : Compared bound table table [] where
  kept _ _ found := found
  once := List.nodup_nil
  absent := by simp
  entered := by simp
  below := by simp

theorem Compared.widen (le : bound ≤ wider) (compared : Compared bound table next fresh) :
    Compared wider table next fresh :=
  { compared with below := fun pair member => Nat.lt_of_lt_of_le (compared.below pair member) le }

theorem Compared.trans (first : Compared bound table middle early)
    (second : Compared bound middle next late) : Compared bound table next (late ++ early) where
  kept pair verdict found := second.kept pair verdict (first.kept pair verdict found)
  once := by
    refine List.nodup_append.mpr ⟨second.once, first.once, ?_⟩
    rintro pair isLate _ isEarly rfl
    exact second.absent pair isLate ((first.entered pair).mpr (.inr isEarly))
  absent := by
    intro pair member known
    rcases List.mem_append.mp member with isLate | isEarly
    · exact second.absent pair isLate ((first.entered pair).mpr (.inl known))
    · exact first.absent pair isEarly known
  entered pair := by
    rw [second.entered pair, first.entered pair, List.mem_append, or_assoc, or_comm (a := pair ∈ early)]
  below pair member := by
    rcases List.mem_append.mp member with isLate | isEarly
    · exact second.below pair isLate
    · exact first.below pair isEarly

theorem verdict?_eq_none {table : EqualityTable} {left right : Nat} :
    table.verdict? left right = none ↔ key left right ∉ table.verdicts := by
  rw [verdict?, Std.HashMap.mem_iff_isSome_getElem?, Bool.not_eq_true, Option.isSome_eq_false_iff,
    Option.isNone_iff_eq_none]

theorem known?_eq_none {table : EqualityTable} {left right : Nat} :
    table.known? left right = none ↔ left ≠ right ∧ key left right ∉ table.verdicts := by
  rw [known?, ← verdict?_eq_none]
  by_cases same : left = right
  · simp [same]
  · simp [same]

theorem Compared.known? (compared : Compared bound table next fresh) {left right : Nat} {verdict : Bool}
    (found : table.known? left right = some verdict) : next.known? left right = some verdict := by
  unfold EqualityTable.known? at *
  by_cases same : left = right
  · rw [if_pos same] at *
    exact found
  · rw [if_neg same] at *
    exact compared.kept _ _ found

theorem Compared.unknown {left right : Nat} (compared : Compared (max left right) table next fresh)
    (unknown : table.known? left right = none) : next.known? left right = none := by
  rw [known?_eq_none] at *
  refine ⟨unknown.1, fun entered => ?_⟩
  rcases (compared.entered _).mp entered with before | new
  · exact unknown.2 before
  · exact Nat.lt_irrefl _ (compared.below _ new)

theorem Compared.enter {left right : Nat} (compared : Compared (max left right) table next fresh)
    (unknown : table.known? left right = none) (verdict : Bool) :
    Compared (max left right + 1) table (next.enter left right verdict)
      (key left right :: fresh) := by
  have isOpen := (known?_eq_none.mp (compared.unknown unknown)).2
  have single : Compared (max left right + 1) next (next.enter left right verdict)
      [key left right] := {
    kept := fun pair other found => insert_of_absent (verdict?_eq_none.mpr isOpen) found
    once := List.nodup_singleton _
    absent := by simpa using isOpen
    entered := by
      intro pair
      rw [EqualityTable.enter, Std.HashMap.mem_insert, beq_iff_eq, or_comm, eq_comm,
        List.mem_singleton]
    below := by
      intro pair member
      obtain rfl := List.mem_singleton.mp member
      exact Nat.lt_succ_self (max left right) }
  exact (compared.widen (Nat.le_succ _)).trans single

theorem enter_known? (table : EqualityTable) {left right : Nat} (different : left ≠ right)
    (verdict : Bool) : (table.enter left right verdict).known? left right = some verdict := by
  rw [known?, if_neg different, verdict?, enter]
  exact Std.HashMap.getElem?_insert_self

section Comparing

variable {circuit : Circuit}

def Decides (circuit : Circuit) (bound left right : Nat) : Prop :=
  ∀ (table : EqualityTable) (below compared : List (Nat × Nat)), ∃ verdict next fresh,
    compareBelow circuit bound left right table = (verdict, next) ∧
      Compared (max left right + 1) table next fresh ∧ next.known? left right = some verdict ∧
      Leads (turn circuit) ⟨(left, right) :: below, compared, table⟩ (.ok ())
        ⟨below, fresh ++ compared, next⟩

theorem compareBelow_of_known {bound left right : Nat} {table : EqualityTable} {verdict : Bool}
    (found : table.known? left right = some verdict) :
    compareBelow circuit (bound + 1) left right table = (verdict, table) := by
  unfold compareBelow
  rw [known?] at found
  by_cases same : left = right
  · rw [if_pos same] at *
    cases found
    rfl
  · rw [if_neg same] at *
    rw [get_bind, found]
    rfl

theorem compareBelow_of_unknown {bound left right : Nat} {table next : EqualityTable}
    {first second : Node} {verdict : Bool} (leftFound : circuit.node? left = some first)
    (rightFound : circuit.node? right = some second) (unknown : table.known? left right = none)
    (runs : (plan first second).run (compareBelow circuit bound) table = (verdict, next)) :
    compareBelow circuit (bound + 1) left right table =
      (verdict, next.enter left right verdict) := by
  obtain ⟨different, absent⟩ := known?_eq_none.mp unknown
  rw [← examine_eq] at runs
  unfold compareBelow
  rw [if_neg different, get_bind, verdict?_eq_none.mpr absent, leftFound, rightFound]
  change (fun reply : Bool × EqualityTable => (reply.1, reply.2.enter left right reply.1))
    (examine (compareBelow circuit bound) first second table) = _
  rw [runs]

theorem turn_of_known {left right : Nat} {below compared : List (Nat × Nat)} {table : EqualityTable}
    {verdict : Bool} (found : table.known? left right = some verdict) :
    turn circuit ⟨(left, right) :: below, compared, table⟩ =
      some (.ok (), ⟨below, compared, table⟩) := by
  simp [turn, found]

theorem turn_of_unknown {left right : Nat} {first second : Node} {below compared : List (Nat × Nat)}
    {table : EqualityTable} (leftFound : circuit.node? left = some first)
    (rightFound : circuit.node? right = some second) (unknown : table.known? left right = none) :
    turn circuit ⟨(left, right) :: below, compared, table⟩ = some
      (match (plan first second).step table with
        | .done verdict => (.ok (), ⟨below, key left right :: compared, table.enter left right verdict⟩)
        | .need p q => (.ok (), ⟨(p, q) :: (left, right) :: below, compared, table⟩)) := by
  simp only [turn, unknown, Option.isSome_none, Bool.false_eq_true, if_false, leftFound, rightFound,
    Option.bind_some, Option.map_some, step_eq]

-- The induction is on what is still to be asked. With the answers known so far, the whole plan comes
-- down to that, whatever else becomes known.
theorem plan_decides {bound left right : Nat} {first second : Node}
    (leftFound : circuit.node? left = some first) (rightFound : circuit.node? right = some second)
    (each : ∀ p ∈ first.children, ∀ q ∈ second.children, Decides circuit (bound + 1) p q)
    {rest : Plan} (within : rest.Within fun p q => p ∈ first.children ∧ q ∈ second.children)
    {table : EqualityTable} (unknown : table.known? left right = none)
    (agrees : ∀ next, (∀ p q verdict, table.known? p q = some verdict →
      next.known? p q = some verdict) → (plan first second).step next = rest.step next)
    (below compared : List (Nat × Nat)) :
    ∃ verdict next fresh, rest.run (compareBelow circuit (bound + 1)) table = (verdict, next) ∧
      Compared (max left right) table next fresh ∧
      Leads (turn circuit) ⟨(left, right) :: below, compared, table⟩ (.ok ())
        ⟨below, key left right :: fresh ++ compared, next.enter left right verdict⟩ := by
  induction within generalizing table compared with
  | answer verdict =>
    refine ⟨verdict, table, [], rfl, compared_refl _ table, leads_of_turn ?_⟩
    rw [turn_of_unknown leftFound rightFound unknown, agrees table fun _ _ _ found => found]
    rfl
  | @ask p q next asks _ ih =>
    obtain ⟨pMember, qMember⟩ := asks
    cases answered : table.known? p q with
    | some verdict =>
      obtain ⟨result, last, fresh, runs, gained, leads⟩ := ih verdict unknown (fun later keeps => by
        rw [agrees later keeps, Plan.step, keeps p q verdict answered]) compared
      refine ⟨result, last, fresh, ?_, gained, leads⟩
      rw [Plan.run_ask, compareBelow_of_known answered]
      exact runs
    | none =>
      obtain ⟨verdict, middle, early, compares, gains, decided, visits⟩ :=
        each p pMember q qMember table ((left, right) :: below) compared
      have smaller : max p q + 1 ≤ max left right := by
        have := Circuit.child_lt_of_node? leftFound pMember
        have := Circuit.child_lt_of_node? rightFound qMember
        omega
      have narrow := gains.widen smaller
      obtain ⟨result, last, late, runs, gained, leads⟩ := ih verdict (narrow.unknown unknown)
        (fun later keeps => by
          rw [agrees later fun a b known found => keeps a b known (narrow.known? found), Plan.step,
            keeps p q verdict decided]) (early ++ compared)
      refine ⟨result, last, late ++ early, ?_, narrow.trans gained, ?_⟩
      · rw [Plan.run_ask, compares]
        exact runs
      · refine leads_turn ?_ (visits.trans ?_)
        · rw [turn_of_unknown leftFound rightFound unknown, agrees table fun _ _ _ found => found,
            Plan.step, answered]
        · simpa only [List.cons_append, List.append_assoc] using leads

-- The induction is on the bound: the children of two nodes are below the larger of the two.
theorem compareBelow_decides (bound : Nat) {left right : Nat} (leftBelow : left < bound)
    (rightBelow : right < bound)
    (inRange : left = right ∨ left < circuit.size ∧ right < circuit.size) :
    Decides circuit bound left right := by
  induction bound generalizing left right with
  | zero => omega
  | succ bound ih =>
    intro table below compared
    cases known : table.known? left right with
    | some verdict =>
      exact ⟨verdict, table, [], compareBelow_of_known known, compared_refl _ table, known,
        leads_of_turn (turn_of_known known)⟩
    | none =>
      have different : left ≠ right := by
        intro same
        simp [known?, same] at known
      obtain ⟨leftInRange, rightInRange⟩ := inRange.resolve_left different
      obtain ⟨first, leftFound⟩ := Circuit.node?_of_lt_size leftInRange
      obtain ⟨second, rightFound⟩ := Circuit.node?_of_lt_size rightInRange
      cases bound with
      | zero => omega
      | succ bound =>
        have each : ∀ p ∈ first.children, ∀ q ∈ second.children, Decides circuit (bound + 1) p q := by
          intro p pMember q qMember
          have pBelow := Circuit.child_lt_of_node? leftFound pMember
          have qBelow := Circuit.child_lt_of_node? rightFound qMember
          exact ih (by omega) (by omega) (.inr ⟨by omega, by omega⟩)
        obtain ⟨verdict, next, fresh, runs, gained, leads⟩ := plan_decides leftFound rightFound each
          (plan_within first second) known (fun _ _ => rfl) below compared
        exact ⟨verdict, next.enter left right verdict, key left right :: fresh,
          compareBelow_of_unknown leftFound rightFound known runs, gained.enter known verdict,
          enter_known? next different verdict, leads⟩

theorem equal_ends (table : EqualityTable) {left right : Nat}
    (inRange : left = right ∨ left < circuit.size ∧ right < circuit.size) :
    ∃ verdict next final, equal circuit left right table = some (verdict, next) ∧
      Leads (turn circuit) ⟨[(left, right)], [], table⟩ (.ok ()) final ∧ final.stack = [] ∧
      final.table = next ∧ final.table.known? left right = some verdict ∧ final.compared.Nodup ∧
      ∀ pair ∈ final.compared, pair ∉ table.verdicts := by
  obtain ⟨verdict, next, fresh, compares, gained, decided, leads⟩ :=
    compareBelow_decides (max left right + 1) (by omega) (by omega) inRange table
      [] []
  have contained : left = right ∨ circuit.contains left ∧ circuit.contains right := by
    simpa [Circuit.contains] using inRange
  refine ⟨verdict, next, _, ?_, leads, rfl, rfl, decided, ?_, ?_⟩
  · rw [equal, if_pos contained, compares]
  · rw [List.append_nil]
    exact gained.once
  · rw [List.append_nil]
    exact gained.absent

end Comparing

end EqualityTable

end ArithCircuit
