import ArithCircuit.Proofs.Optimal
import ArithCircuit.Proofs.Paths

set_option autoImplicit false

namespace ArithCircuit

theorem balancedDepth_of_perm {depths others : List Nat} (reordered : others.Perm depths) :
    balancedDepth others = balancedDepth depths := by
  have ascending : ∀ list : List Nat, (list.mergeSort (· ≤ ·)).Pairwise (· ≤ ·) := fun list =>
    (stablySorted_mergeSort id list).ascending
  have sameSorted : others.mergeSort (· ≤ ·) = depths.mergeSort (· ≤ ·) :=
    List.Perm.eq_of_pairwise' (ascending others) (ascending depths)
      ((List.mergeSort_perm others _).trans (reordered.trans (List.mergeSort_perm depths _).symm))
  unfold balancedDepth
  rw [sameSorted]

namespace Build

theorem balancedProduct_predicted {circuit : Circuit} {table : DepthTable} (right : table.Right circuit)
    {operands : List Nat} (inRange : ∀ operand ∈ operands, operand < circuit.size) :
    ∃ depths later form next grown,
      operands.mapM depth table circuit = some ((depths, later), circuit) ∧
      List.Forall₂ (fun operand depth => circuit.depth? operand = some depth) operands depths ∧
      balancedProduct operands table circuit = some ((form, next), grown) ∧
      ∀ listed : List Nat, listed.Perm depths → grown.depth? form = some (balancedDepth listed) := by
  obtain ⟨formulas, denote⟩ := exists_forall₂ fun operand member =>
    circuit.formula?_of_lt_size (inRange operand member)
  have haveDepths := Circuit.forall_hasDepth denote
  obtain ⟨⟨depths, later⟩, _, asked, rfl, same, _⟩ := depths_yield right denote
  obtain ⟨⟨form, next⟩, grown, built, balances, _⟩ := balancedProduct_yields right inRange
  dsimp only at same
  subst same
  refine ⟨_, later, form, next, grown, asked, haveDepths.imp fun _ _ known => known.depth?_eq, built,
    fun listed reordered => ?_⟩
  rw [balancedDepth_of_perm reordered]
  exact (balances.hasDepth _ haveDepths).depth?_eq

end Build

namespace Log

variable {log before : Log}

theorem threshold_record (log : Log) (event : Event) : (log.record event).threshold = log.threshold := by
  unfold record
  split <;> rfl

theorem events_record (log : Log) (event : Event) :
    (log.record event).events = log.events ++ if log.admits event.level then [event] else [] := by
  unfold record
  split <;> simp [events]

theorem admits_of_threshold (same : log.threshold = before.threshold) (level : LogLevel) :
    log.admits level = before.admits level := by
  unfold admits
  rw [same]

end Log

namespace Balancer

theorem level_announcement (id count old new : Nat) :
    (announcement id count old new).level = .trace := by
  unfold announcement
  split <;> rfl

section Reports

variable {start circuit grown : Circuit} {counted : FanOut} {known forms larger : Forms} {id form : Nat}
  {before log later : Log} {event : Event}

theorem Announced.mono (extended : circuit.Extends grown) (kept : forms.Within larger)
    (announced : Announced start counted forms circuit id event) :
    Announced start counted larger grown id event := by
  obtain ⟨factors, operands, old, depths, split, looked, hasDepth, haveDepths, same⟩ := announced
  exact ⟨factors, operands, old, depths, split, mapM_of_lookup kept looked, hasDepth.of_extends extended,
    haveDepths.imp fun _ _ known => known.of_extends extended, same⟩

theorem Announced.level (announced : Announced start counted forms circuit id event) :
    event.level = .trace := by
  obtain ⟨_, _, _, _, _, _, _, _, rfl⟩ := announced
  exact level_announcement _ _ _ _

structure Handled (start : Circuit) (known forms : Forms) (id form : Nat) : Prop where
  isNew : known[id]? = none
  found : forms[id]? = some form
  product : ∃ left right, start.node? id = some (.product left right)

-- What a run appends to the log `before`: one event for each product that it handled, if such events
-- are kept at all.
structure Announces (start : Circuit) (counted : FanOut) (known : Forms) (before : Log)
    (circuit : Circuit) (forms : Forms) (log : Log) : Prop where
  threshold : log.threshold = before.threshold
  events : ∃ announced, log.events = before.events ++ announced ∧
    (∀ event ∈ announced, ∃ id form, Handled start known forms id form ∧
      Announced start counted forms circuit id event) ∧
    (before.admits .trace = true → ∀ id form, Handled start known forms id form →
      ∃ event ∈ announced, Announced start counted forms circuit id event)

theorem start_announces (start : Circuit) (counted : FanOut) (known : Forms) (log : Log) :
    Announces start counted known log start known log := by
  refine ⟨rfl, [], (List.append_nil _).symm, by simp, fun _ id form handled => ?_⟩
  exact nomatch handled.isNew.symm.trans handled.found

theorem Handled.insert (isOpen : forms[id]? = none) {other value : Nat}
    (handled : Handled start known forms other value) :
    Handled start known (forms.insert id form) other value :=
  ⟨handled.isNew, Forms.within_insert isOpen form other value handled.found, handled.product⟩

theorem Handled.of_insert {other value : Nat}
    (handled : Handled start known (forms.insert id form) other value) :
    other = id ∨ Handled start known forms other value := by
  rcases found_in_insert handled.found with ⟨rfl, _⟩ | older
  · exact .inl rfl
  · exact .inr ⟨handled.isNew, older, handled.product⟩

theorem Announces.extend (announces : Announces start counted known before circuit forms log)
    (extended : circuit.Extends grown) (isOpen : forms[id]? = none) (isNew : known[id]? = none)
    (reported : Reported start counted forms grown id log later) (form : Nat) :
    Announces start counted known before grown (forms.insert id form) later := by
  obtain ⟨threshold, announced, listed, truthful, complete⟩ := announces
  have within := Forms.within_insert isOpen form
  have stillTruthful : ∀ event ∈ announced, ∃ other value,
      Handled start known (forms.insert id form) other value ∧
      Announced start counted (forms.insert id form) grown other event := by
    intro event member
    obtain ⟨other, value, handled, told⟩ := truthful event member
    exact ⟨other, value, handled.insert isOpen, told.mono extended within⟩
  cases reported with
  | other unsplit =>
    refine ⟨threshold, announced, listed, stillTruthful, fun admitted other value handled => ?_⟩
    rcases handled.of_insert with rfl | older
    · obtain ⟨left, right, isProduct⟩ := handled.product
      exact absurd isProduct (unsplit left right)
    · obtain ⟨event, member, told⟩ := complete admitted other value older
      exact ⟨event, member, told.mono extended within⟩
  | @product left right event found told =>
    have toldNow := told.mono grown.extends_refl within
    refine ⟨(Log.threshold_record log event).trans threshold,
      announced ++ if log.admits event.level then [event] else [], ?_, ?_, ?_⟩
    · rw [Log.events_record, listed, List.append_assoc]
    · intro other member
      rcases List.mem_append.mp member with older | isNewest
      · exact stillTruthful other older
      · obtain ⟨_, rfl⟩ : log.admits event.level = true ∧ other = event := by simpa using isNewest
        exact ⟨id, form, ⟨isNew, Std.HashMap.getElem?_insert_self, left, right, found⟩, toldNow⟩
    · intro admitted other value handled
      rcases handled.of_insert with rfl | older
      · rw [told.level, Log.admits_of_threshold threshold, if_pos admitted]
        exact ⟨event, List.mem_append_right announced (List.mem_singleton_self event), toldNow⟩
      · obtain ⟨earlier, member, earlierTold⟩ := complete admitted other value older
        exact ⟨earlier, List.mem_append_left _ member, earlierTold.mono extended within⟩

end Reports

section Runs

variable {start circuit : Circuit} {counted : FanOut} {root : Nat} {known : Forms} {balancer : Balancer}

theorem rebuild_announces {before : Log} {id : Nat} (extended : start.Extends circuit)
    (inRange : id < start.size) (isOpen : balancer.forms[id]? = none)
    (ready : ∀ dependency ∈ dependencies start counted id, dependency ∈ balancer.forms)
    (working : Working start counted root known circuit balancer)
    (announces : Announces start counted known before circuit balancer.forms balancer.memory.log) :
    Yields (rebuild balancer.forms id balancer.memory) circuit fun reply grown =>
      Announces start counted known before grown (balancer.forms.insert id reply.1) reply.2.log := by
  have present := Nat.lt_of_lt_of_le inRange (Circuit.size_le_of_extends extended)
  obtain ⟨formula, denotes⟩ := circuit.formula?_of_lt_size present
  have isNew : known[id]? = none := by
    cases older : known[id]? with
    | none => rfl
    | some form => exact nomatch isOpen.symm.trans (working.kept id form older)
  refine (rebuild_yields inRange extended working.improved working.depths
    (fun _ below => working.inherits.isShared_eq below) denotes ready).mono ?_
  intro reply grown finished
  obtain ⟨form, last⟩ := reply
  obtain ⟨later, formed, reported, same⟩ := finished
  dsimp only at formed reported same ⊢
  subst same
  exact announces.extend formed.extended isOpen isNew reported form

theorem run_announces (right : Right circuit balancer) (counting : balancer.memory.fanOut = counted)
    (inRange : root < circuit.size) :
    Yields (Rewriter.run (dependencies circuit counted) rebuild root balancer) circuit
      fun reply grown => circuit.Extends grown ∧
        (Working circuit counted root balancer.forms grown reply.2 ∧
          Announces circuit counted balancer.forms balancer.memory.log grown reply.2.forms
            reply.2.memory.log) ∧
        reply.2.forms[root]? = some reply.1 := by
  refine @Rewriter.run_yields BalancerMemory (dependencies circuit counted) rebuild
    (fun current rewriter => Working circuit counted root balancer.forms current rewriter ∧
      Announces circuit counted balancer.forms balancer.memory.log current rewriter.forms
        rewriter.memory.log) circuit (Called circuit counted root)
    (dependencies_earlier circuit counted) (fun _ called _ member => called.dependency member) root
    (called_root circuit counted root) ?_ balancer
    ⟨start_working right counting root, start_announces circuit counted _ _⟩
  intro current rewriter id extended called isOpen ready holds
  have below := Nat.lt_of_le_of_lt called.reached.le inRange
  refine ((rebuild_working extended below called isOpen ready holds.1).both
    (rebuild_announces extended below isOpen ready holds.1 holds.2)).mono ?_
  exact fun _ _ finished => ⟨finished.1.1, finished.1.2, finished.2⟩

end Runs

def Predicted (start : Circuit) (counted : FanOut) (forms : Forms) (grown : Circuit) (id form : Nat)
    (event : Event) : Prop :=
  ∃ factors operands depths old, counted.factors? start id = some factors ∧
    factors.mapM (fun factor => forms[factor]?) = some operands ∧
    List.Forall₂ (fun operand depth => grown.depth? operand = some depth) operands depths ∧
    start.depth? id = some old ∧ grown.depth? form = some (min old (balancedDepth depths)) ∧
    (form ≠ id ↔ balancedDepth depths < old) ∧
    event = announcement id operands.length old (balancedDepth depths)

section Outcomes

variable {start grown : Circuit} {counted : FanOut} {forms : Forms} {id form left right : Nat}

theorem Decided.announced (decided : Decided start counted forms grown id form)
    (isProduct : start.node? id = some (.product left right)) :
    ∃ event, Announced start counted forms grown id event := by
  cases decided with
  | product _ split _ looked hasDepth haveDepths _ =>
    exact ⟨_, _, _, _, _, split, looked, hasDepth, haveDepths, rfl⟩
  | other unsplit => exact absurd isProduct (unsplit left right)

theorem Decided.predicted (decided : Decided start counted forms grown id form)
    (extended : start.Extends grown) (isProduct : start.node? id = some (.product left right))
    {event : Event} (announced : Announced start counted forms grown id event) :
    Predicted start counted forms grown id form event := by
  obtain ⟨factors, operands, old, depths, split, looked, hasDepth, haveDepths, same⟩ := announced
  obtain ⟨formula, denotes⟩ := start.formula?_of_lt_size (Circuit.lt_size_of_node? isProduct)
  have atStart : start.HasDepth id formula.depth := ⟨formula, denotes, rfl⟩
  have sameOld := (atStart.of_extends extended).unique hasDepth
  cases decided with
  | product _ alsoSplit _ alsoLooked alsoDepth alsoDepths outcome =>
    obtain rfl := Option.some.inj (split.symm.trans alsoSplit)
    obtain rfl := Option.some.inj (looked.symm.trans alsoLooked)
    obtain rfl := hasDepth.unique alsoDepth
    obtain rfl := Circuit.forall_hasDepth_unique haveDepths alsoDepths
    refine ⟨factors, operands, depths, old, split, looked, haveDepths.imp fun _ _ known =>
      known.depth?_eq, sameOld ▸ atStart.depth?_eq, ?_⟩
    rcases outcome with ⟨rfl, noBetter⟩ | ⟨_, formDepth, shallower⟩
    · rw [Nat.min_eq_left noBetter]
      exact ⟨hasDepth.depth?_eq, iff_of_false (fun moved => moved rfl) (Nat.not_lt_of_le noBetter), same⟩
    · rw [Nat.min_eq_right (Nat.le_of_lt shallower)]
      refine ⟨formDepth.depth?_eq, iff_of_true ?_ shallower, same⟩
      rintro rfl
      exact absurd (formDepth.unique hasDepth) (Nat.ne_of_lt shallower)
  | other unsplit => exact absurd isProduct (unsplit left right)

end Outcomes

structure Foretells (circuit : Circuit) (balancer : Balancer) (root : Nat) (grown : Circuit)
    (later : Balancer) (form : Nat) (counted : FanOut) (announced closing : List Event) : Prop where
  counting : balancer.memory.fanOut.count? circuit root = some counted
  rootForm : later.forms[root]? = some form
  log : later.memory.log.events = balancer.memory.log.events ++ announced ++ closing
  outcome : ∀ id new, Handled circuit balancer.forms later.forms id new →
    ∃ event, Predicted circuit counted later.forms grown id new event ∧
      (balancer.memory.log.admits .trace = true → event ∈ announced)
  truthful : ∀ event ∈ announced, ∃ id new, Handled circuit balancer.forms later.forms id new ∧
    Predicted circuit counted later.forms grown id new event
  closing : ∀ event ∈ closing, ∃ old new, event = .reduced root old form new ∧
    circuit.depth? root = some old ∧ grown.depth? form = some new

theorem reduce_foretells {circuit : Circuit} {balancer : Balancer} (right : Right circuit balancer)
    {root : Nat} (inRange : root < circuit.size) :
    ∃ form later grown counted announced closing,
      reduce root balancer circuit = some ((form, later), grown) ∧
      Foretells circuit balancer root grown later form counted announced closing := by
  obtain ⟨counted, counting⟩ := balancer.memory.fanOut.exists_count? inRange
  have ready : Right circuit ⟨balancer.forms, { balancer.memory with fanOut := counted }⟩ :=
    ⟨right.improved, right.depths⟩
  obtain ⟨⟨form, last⟩, grown, ran, extended, ⟨working, announces⟩, found⟩ :=
    run_announces ready rfl inRange
  dsimp only at working announces found
  obtain ⟨formula, rootDenotes⟩ := circuit.formula?_of_lt_size inRange
  obtain ⟨_, result, _, formDenotes, _⟩ := working.related root form found
  obtain ⟨⟨_, forms, memory⟩, _, gives, sameCircuit, sameForm, sameForms, _, _, sameLog⟩ :=
    reduce_of_run counting ran working.depths (Circuit.denotes_of_extends extended rootDenotes)
      formDenotes
  dsimp only at sameForm sameForms sameLog
  rw [sameCircuit, sameForm, sameForms] at gives
  obtain ⟨_, announced, listed, truthful, complete⟩ := announces
  have predicts : ∀ {id new : Nat} {event : Event}, Handled circuit balancer.forms last.forms id new →
      Announced circuit counted last.forms grown id event →
      Predicted circuit counted last.forms grown id new event := by
    intro id new event handled told
    obtain ⟨left, right, isProduct⟩ := handled.product
    exact (working.decided id new handled.isNew handled.found).predicted extended isProduct told
  refine ⟨form, ⟨last.forms, memory⟩, grown, counted, announced,
    if last.memory.log.admits .debug then [.reduced root formula.depth form result.depth] else [],
    gives, counting, found, ?_, fun id new handled => ?_, fun event member => ?_, fun event member => ?_⟩
  · rw [sameLog, Log.events_record, listed]
    rfl
  · by_cases admitted : balancer.memory.log.admits .trace = true
    · obtain ⟨event, member, told⟩ := complete admitted id new handled
      exact ⟨event, predicts handled told, fun _ => member⟩
    · obtain ⟨left, right, isProduct⟩ := handled.product
      obtain ⟨event, told⟩ := (working.decided id new handled.isNew handled.found).announced isProduct
      exact ⟨event, predicts handled told, fun kept => absurd kept admitted⟩
  · obtain ⟨id, new, handled, told⟩ := truthful event member
    exact ⟨id, new, handled, predicts handled told⟩
  · obtain ⟨_, rfl⟩ : last.memory.log.admits .debug = true ∧
        event = .reduced root formula.depth form result.depth := by simpa using member
    exact ⟨formula.depth, result.depth, rfl, Circuit.HasDepth.depth?_eq ⟨formula, rootDenotes, rfl⟩,
      Circuit.HasDepth.depth?_eq ⟨result, formDenotes, rfl⟩⟩

theorem balancedDepth_foretells (circuit : Circuit) :
    (∀ table, DepthTable.Session circuit table → ∀ operands : List Nat,
      (∀ operand ∈ operands, operand < circuit.size) → ∃ depths later form next grown,
        operands.mapM Build.depth table circuit = some ((depths, later), circuit) ∧
        List.Forall₂ (fun operand depth => circuit.depth? operand = some depth) operands depths ∧
        Build.balancedProduct operands table circuit = some ((form, next), grown) ∧
        ∀ listed : List Nat, listed.Perm depths →
          grown.depth? form = some (balancedDepth listed)) ∧
    balancedDepth [] = 0 ∧
    ∀ log balancer, History log circuit balancer → ∀ root < circuit.size,
      ∃ form later grown counted announced closing,
        reduce root balancer circuit = some ((form, later), grown) ∧
        Foretells circuit balancer root grown later form counted announced closing :=
  ⟨fun _ session _ inRange => Build.balancedProduct_predicted (DepthTable.session_right session) inRange,
    balancedDepth_nil, fun _ _ history _ inRange => reduce_foretells history.counts.1 inRange⟩

theorem factors?_leaningProduct {log : Log} {counted : FanOut}
    (counting : (fresh log).memory.fanOut.count? leaningProduct 6 = some counted) :
    counted.factors? leaningProduct 6 = some [0, 1, 2, 3] := by
  obtain ⟨users, counts, _, reached, uses⟩ :=
    FanOut.count?_counts (FanOut.empty_counts leaningProduct) (by decide) counting
  have unshared : ∀ id < 6, false = counted.isShared id := by
    intro id below
    have few : ∀ id < 6, leaningProduct.usesBy (List.range 7) id ≤ 1 := by decide
    have atMost := @Circuit.usesBy_le_of_subset leaningProduct _ _ (List.nodup_append.mp counts.once).1
      (fun user member => List.mem_range.mpr (Nat.lt_succ_of_le (reached user member).le)) id
    have before : FanOut.empty.usesOf id = 0 := by simp [FanOut.empty, FanOut.usesOf]
    have single : counted.usesOf id ≤ 1 := by
      rw [uses, before, Nat.zero_add]
      exact Nat.le_trans atMost (few id below)
    simpa [FanOut.isShared] using single
  exact Circuit.chain?_congr leaningProduct.extends_refl (by decide) unshared

theorem leaning_product_foretold :
    ∃ form later grown, reduce 6 (fresh (.upTo .trace)) leaningProduct = some ((form, later), grown) ∧
      .rebalanced 6 4 3 2 ∈ later.memory.log.events ∧ grown.depth? form = some 2 := by
  obtain ⟨form, later, grown, counted, announced, closing, gives, foretells⟩ :=
    (balancedDepth_foretells leaningProduct).2.2 (.upTo .trace) _ (.start leaningProduct) 6 (by decide)
  have unknown : ∀ id : Nat, (fresh (.upTo .trace)).forms[id]? = none := by
    simp [fresh, Rewriter.fresh]
  obtain ⟨event, ⟨factors, operands, depths, old, split, looked, haveDepths, oldDepth, newDepth, _, same⟩,
    kept⟩ := foretells.outcome 6 form ⟨unknown 6, foretells.rootForm, 5, 3, rfl⟩
  obtain rfl := Option.some.inj ((factors?_leaningProduct foretells.counting).symm.trans split)
  -- The four inputs keep their places, where they have depth zero.
  obtain ⟨_, _, also, extended, _, _, working, _⟩ :=
    reduce_yields (fresh_right (.upTo .trace) leaningProduct) (show 6 < leaningProduct.size by decide)
  cases gives.symm.trans also
  have flat : ∀ leaf < 4, leaningProduct.HasDepth leaf 0 := by
    intro leaf below
    obtain rfl | rfl | rfl | rfl : leaf = 0 ∨ leaf = 1 ∨ leaf = 2 ∨ leaf = 3 := by omega
    all_goals exact ⟨_, rfl, rfl⟩
  have stays : ∀ leaf < 4, ∀ value, later.forms[leaf]? = some value →
      grown.depth? value = some 0 := by
    intro leaf below value found
    obtain rfl := working.form_eq_of_flat unknown (flat leaf below) found
    exact ((flat value below).of_extends extended).depth?_eq
  obtain _ | ⟨first, _ | ⟨second, _ | ⟨third, _ | ⟨fourth, ⟨⟩⟩⟩⟩⟩ := forall₂_of_mapM_eq_some looked
  obtain _ | ⟨firstDepth, _ | ⟨secondDepth, _ | ⟨thirdDepth, _ | ⟨fourthDepth, ⟨⟩⟩⟩⟩⟩ := haveDepths
  cases (stays 0 (by decide) _ first).symm.trans firstDepth
  cases (stays 1 (by decide) _ second).symm.trans secondDepth
  cases (stays 2 (by decide) _ third).symm.trans thirdDepth
  cases (stays 3 (by decide) _ fourth).symm.trans fourthDepth
  have before : leaningProduct.depth? 6 = some 3 := Circuit.HasDepth.depth?_eq ⟨_, rfl, rfl⟩
  cases before.symm.trans oldDepth
  have sorted : [0, 0, 0, 0].mergeSort (· ≤ ·) = [0, 0, 0, 0] := List.mergeSort_of_pairwise (by decide)
  have two : balancedDepth [0, 0, 0, 0] = 2 := by
    rw [balancedDepth, sorted]
    rfl
  rw [two] at newDepth same
  obtain rfl : event = .rebalanced 6 4 3 2 := same
  refine ⟨form, later, grown, gives, ?_, newDepth⟩
  rw [foretells.log]
  exact List.mem_append_left closing (List.mem_append_right _ (kept rfl))

end Balancer

end ArithCircuit
