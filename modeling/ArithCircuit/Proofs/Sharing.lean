import ArithCircuit.Pipeline.Run
import ArithCircuit.Proofs.Appended

set_option autoImplicit false

namespace ArithCircuit

namespace Circuit

-- A product that is an output or has several users among all outputs has several users already
-- among those up to the first one below which it is an operand of a product.
def SharingKnown (circuit : Circuit) (roots : List Nat) : Prop :=
  ∀ earlier user left right id first second, earlier <+: roots → circuit.Below earlier user →
    circuit.node? user = some (.product left right) → id ∈ circuit.children user →
    circuit.node? id = some (.product first second) →
    id ∈ roots ∨ 2 ≤ circuit.usesBelow roots id → 2 ≤ circuit.usesBelow earlier id

end Circuit

namespace Balancer

section Narrow

variable {start circuit : Circuit} {counted : FanOut} {root id : Nat} {known forms : Forms}
  {tops splits : List Nat}

theorem Called.narrow (extended : start.Extends circuit) (inRange : root < start.size)
    (called : Called circuit counted root id) : Called start counted root id where
  reached := called.reached.of_grown extended inRange
  reason := by
    have below : id < start.size := Nat.lt_of_le_of_lt called.reached.le inRange
    rcases called.reason with isRoot | whole | other
    · exact .inl isRoot
    · rw [Circuit.Whole, Circuit.node?_of_extends extended below] at whole
      exact .inr (.inl whole)
    · obtain ⟨user, reaches, uses, unsplit⟩ := other
      have userBelow : user < start.size := Nat.lt_of_le_of_lt reaches.le inRange
      rw [Circuit.children_of_extends extended userBelow] at uses
      rw [Circuit.node?_of_extends extended userBelow] at unsplit
      exact .inr (.inr ⟨user, reaches.of_grown extended inRange, uses, unsplit⟩)

theorem Ledger.narrow (extended : start.Extends circuit) (inRange : root < start.size)
    (ledger : Ledger circuit counted root known forms tops splits) :
    Ledger start counted root known forms tops splits := by
  have older : ∀ {node : Nat}, circuit.Reaches root node → node < start.size :=
    fun reaches => Nat.lt_of_le_of_lt reaches.le inRange
  have called : ∀ {node form : Nat}, known[node]? = none → forms[node]? = some form →
      Called circuit counted root node := by
    intro node form absent found
    rcases ledger.formed node form found with before | here
    · rw [absent] at before
      contradiction
    · exact here.1
  have splitOlder : ∀ split ∈ splits, split < start.size := by
    intro split member
    obtain ⟨user, _, _, reaches, _, uses⟩ := ledger.users split member
    exact older (reaches.child uses)
  constructor
  case once => exact ledger.once
  case formed =>
    intro node form found
    refine (ledger.formed node form found).imp_right fun here => ?_
    exact ⟨here.1.narrow extended inRange,
      here.2.imp_right (Nat.le_trans (Circuit.size_le_of_extends extended))⟩
  case replaced =>
    intro top member
    obtain ⟨topCalled, rest⟩ := ledger.replaced top member
    exact ⟨topCalled.narrow extended inRange, rest⟩
  case kept =>
    intro node absent found
    have below := older (called absent found).reached
    have keeps := ledger.kept node absent found
    rwa [Keeps, Circuit.node?_of_extends extended below, Circuit.children_of_extends extended below]
      at keeps
  case changed =>
    intro node form absent found moved
    rw [← Circuit.isGate_of_extends extended .all (older (called absent found).reached)]
    exact ledger.changed node form absent found moved
  case products =>
    intro split member
    rw [← Circuit.node?_of_extends extended (splitOlder split member)]
    exact ledger.products split member
  case unshared => exact ledger.unshared
  case users =>
    intro split member
    obtain ⟨user, left, right, reaches, found, uses⟩ := ledger.users split member
    rw [Circuit.node?_of_extends extended (older reaches)] at found
    rw [Circuit.children_of_extends extended (older reaches)] at uses
    exact ⟨user, left, right, reaches.of_grown extended inRange, found, uses⟩
  case used =>
    intro node
    have gatesOlder : ∀ gate ∈ tops ++ splits, gate < start.size := by
      intro gate member
      cases List.mem_append.mp member with
      | inl isTop => exact older (ledger.replaced gate isTop).1.reached
      | inr isSplit => exact splitOlder gate isSplit
    rw [← Circuit.usesBy_of_extends extended gatesOlder]
    exact ledger.used node

end Narrow

structure Demanded (circuit : Circuit) (roots : List Nat) (id : Nat) : Prop where
  reached : circuit.Below roots id
  reason : id ∈ roots ∨ 2 ≤ circuit.usesBelow roots id ∨
    (∀ left right, circuit.node? id ≠ some (.product left right)) ∨
    ∃ user, circuit.Below roots user ∧ id ∈ circuit.children user ∧
      ∀ left right, circuit.node? user ≠ some (.product left right)

-- A product that has been split for its only user among the outputs so far.
structure Absorbed (circuit : Circuit) (roots : List Nat) (id : Nat) : Prop where
  product : ∃ left right, circuit.node? id = some (.product left right)
  split : ∃ earlier user left right, earlier <+: roots ∧ circuit.usesBelow earlier id ≤ 1 ∧
    circuit.Below earlier user ∧ circuit.node? user = some (.product left right) ∧
    id ∈ circuit.children user

theorem Demanded.mono {circuit : Circuit} {roots more : List Nat} {id : Nat}
    (inRange : ∀ root ∈ more, root < circuit.size) (subset : roots ⊆ more)
    (demanded : Demanded circuit roots id) : Demanded circuit more id where
  reached := demanded.reached.mono subset
  reason := by
    rcases demanded.reason with isRoot | shared | single | other
    · exact .inl (subset isRoot)
    · exact .inr (.inl (Nat.le_trans shared (Circuit.usesBelow_mono inRange subset id)))
    · exact .inr (.inr (.inl single))
    · obtain ⟨user, below, rest⟩ := other
      exact .inr (.inr (.inr ⟨user, below.mono subset, rest⟩))

theorem Absorbed.mono {circuit : Circuit} {roots more : List Nat} {id : Nat}
    (isPrefix : roots <+: more) (absorbed : Absorbed circuit roots id) : Absorbed circuit more id := by
  obtain ⟨earlier, user, left, right, first, rest⟩ := absorbed.split
  exact ⟨absorbed.product, earlier, user, left, right, first.trans isPrefix, rest⟩

theorem Absorbed.sole {circuit : Circuit} {roots : List Nat} {id : Nat}
    (known : circuit.SharingKnown roots) (absorbed : Absorbed circuit roots id) :
    id ∉ roots ∧ circuit.usesBelow roots id ≤ 1 := by
  obtain ⟨first, second, isProduct⟩ := absorbed.product
  obtain ⟨earlier, user, left, right, isPrefix, few, below, found, uses⟩ := absorbed.split
  have unknown : ¬ (id ∈ roots ∨ 2 ≤ circuit.usesBelow roots id) := by
    intro shared
    have several := known earlier user left right id first second isPrefix below found uses
      isProduct shared
    omega
  exact ⟨fun isRoot => unknown (.inl isRoot), by
    by_contra several
    exact unknown (.inr (by omega))⟩

-- The state of a balancer after some outputs, with the nodes that it has counted, replaced and split.
structure Reduced (start : Circuit) (roots : List Nat) (circuit : Circuit) (balancer : Balancer)
    (users tops splits : List Nat) : Prop where
  right : Right circuit balancer
  extended : start.Extends circuit
  counts : FanOut.Counts circuit balancer.memory.fanOut users
  listed : ∀ id, id ∈ users ↔ start.Below roots id
  exact : ∀ id < start.size, balancer.memory.fanOut.usesOf id = start.usesBy users id
  once : tops.Nodup
  formed : ∀ id form : Nat, balancer.forms[id]? = some form →
    Demanded start roots id ∧ (form = id ∨ start.size ≤ form)
  replaced : ∀ top ∈ tops, ∃ form, balancer.forms[top]? = some form ∧ form ≠ top
  kept : ∀ id : Nat, balancer.forms[id]? = some id → Keeps start balancer.forms id
  changed : ∀ id form : Nat, balancer.forms[id]? = some form → form ≠ id →
    start.isGate .all id = true
  absorbed : ∀ split ∈ splits, Absorbed start roots split
  used : ∀ id, splits.count id ≤ start.usesBy (tops ++ splits) id
  trades : start.Trades circuit balancer.forms (tops ++ splits)
  cost : ∀ kinds : GateSet, (start.gained circuit).countP (circuit.isGate kinds) ≤
    (roots.map fun root => (start.gateCount? [root] kinds).getD 0).sum

theorem fresh_reduced (log : Log) (start : Circuit) :
    Reduced start [] start (fresh log) [] [] [] where
  right := fresh_right log start
  extended := start.extends_refl
  counts := FanOut.empty_counts start
  listed := by simp [Circuit.Below]
  exact := by simp [fresh, Rewriter.fresh, FanOut.empty, FanOut.usesOf, Circuit.usesBy_nil]
  once := .nil
  formed := by simp [fresh, Rewriter.fresh]
  replaced := by simp
  kept := by simp [fresh, Rewriter.fresh]
  changed := by simp [fresh, Rewriter.fresh]
  absorbed := by simp
  used := by simp
  trades := .unchanged _ _ _
  cost := by simp [Circuit.gained_self]

section Counting

variable {start : Circuit} {roots : List Nat} {counted : FanOut} {root : Nat}

theorem Called.demanded (isRoot : root ∈ roots)
    (exact : ∀ id < start.size, counted.usesOf id = start.usesBelow roots id)
    (rootInRange : root < start.size) {id : Nat} (called : Called start counted root id) :
    Demanded start roots id where
  reached := ⟨root, isRoot, called.reached⟩
  reason := by
    rcases called.reason with rfl | (shared | single) | other
    · exact .inl isRoot
    · have below := Nat.lt_of_le_of_lt called.reached.le rootInRange
      rw [FanOut.isShared, exact id below] at shared
      exact .inr (.inl (of_decide_eq_true shared))
    · exact .inr (.inr (.inl single))
    · obtain ⟨user, reaches, rest⟩ := other
      exact .inr (.inr (.inr ⟨user, ⟨root, isRoot, reaches⟩, rest⟩))

theorem Ledger.absorbed {known forms : Forms} {tops splits : List Nat}
    (ledger : Ledger start counted root known forms tops splits) (isRoot : root ∈ roots)
    (exact : ∀ id < start.size, counted.usesOf id = start.usesBelow roots id) :
    ∀ split ∈ splits, Absorbed start roots split := by
  intro split member
  obtain ⟨user, left, right, reaches, found, uses⟩ := ledger.users split member
  obtain ⟨first, second, isProduct⟩ := ledger.products split member
  have few := ledger.unshared split member
  rw [FanOut.isShared, exact split (Circuit.lt_size_of_node? isProduct)] at few
  exact ⟨⟨first, second, isProduct⟩, roots, user, left, right, List.prefix_refl roots,
    by simpa using few, ⟨root, isRoot, reaches⟩, found, uses⟩

end Counting

theorem Reduced.cost_after {start circuit grown : Circuit} {roots : List Nat} {balancer : Balancer}
    {users tops splits : List Nat}
    (reduced : Reduced start roots circuit balancer users tops splits) (further : circuit.Extends grown)
    {root : Nat} (inRange : root < start.size) {counted : FanOut} {known forms : Forms}
    {newTops newSplits more : List Nat}
    (accounts : Accounts circuit counted root known grown forms newTops newSplits)
    (counts : FanOut.Counts circuit counted more) (rootCounted : root ∈ more) (kinds : GateSet) :
    (start.gained grown).countP (grown.isGate kinds) ≤
      ((roots ++ [root]).map fun root => (start.gateCount? [root] kinds).getD 0).sum := by
  have extended := reduced.extended
  obtain ⟨gates, counting, atMost⟩ := accounts.counts_le counts rootCounted kinds
  rw [Circuit.gateCount?_of_extends extended (by simpa using inRange)] at counting
  have earlierInRange : ∀ id ∈ start.gained circuit, id < circuit.size :=
    fun id member => (Circuit.mem_gained.mp member).2
  have older := reduced.cost kinds
  rw [← Circuit.gained_append extended further, List.countP_append,
    Circuit.countP_isGate_of_extends further kinds earlierInRange, List.map_append, List.sum_append,
    List.map_singleton, List.sum_singleton, counting, Option.getD_some]
  omega

theorem reduce_reduced {start circuit : Circuit} {roots : List Nat} {balancer : Balancer}
    {users tops splits : List Nat} (rootsInRange : ∀ root ∈ roots, root < start.size)
    (reduced : Reduced start roots circuit balancer users tops splits) {root : Nat}
    (inRange : root < start.size) :
    Yields (reduce root balancer) circuit fun reply grown =>
      (∃ users tops splits, Reduced start (roots ++ [root]) grown reply.2 users tops splits) ∧
        balancer.forms.Within reply.2.forms ∧ reply.2.forms[root]? = some reply.1 := by
  have extended := reduced.extended
  have present := Nat.lt_of_lt_of_le inRange (Circuit.size_le_of_extends extended)
  refine (reduce_counts reduced.right reduced.counts present).mono ?_
  intro reply grown finished
  obtain ⟨further, fresh, counted, counts, rootCounted, reached, uses, working, found⟩ := finished
  obtain ⟨newTops, newSplits, accounts⟩ := working.accounts
  have ledger := accounts.toLedger.narrow extended inRange
  have within := working.kept
  have allInRange : ∀ other ∈ roots ++ [root], other < start.size := by
    simpa [or_imp, forall_and] using And.intro rootsInRange inRange
  have isRoot : root ∈ roots ++ [root] := by simp
  have listed := FanOut.listed_after extended inRange reduced.listed counts rootCounted reached
  have exact : ∀ id < start.size, counted.usesOf id = start.usesBy (fresh ++ users) id :=
    fun id below => FanOut.exact_after extended inRange reached (reduced.exact id below) (uses id)
  have total : ∀ id < start.size, counted.usesOf id = start.usesBelow (roots ++ [root]) id := by
    intro id below
    rw [exact id below, Circuit.usesBelow_eq allInRange counts.once listed]
  have before : ∀ id form : Nat, reply.2.forms[id]? = some form →
      balancer.forms[id]? = some form ∨ balancer.forms[id]? = none := by
    intro id form formFound
    cases old : balancer.forms[id]? with
    | none => exact .inr rfl
    | some value =>
      obtain rfl := Option.some.inj ((within id value old).symm.trans formFound)
      exact .inl rfl
  have gatesInRange : ∀ gate ∈ newTops ++ newSplits, gate < start.size := fun gate member =>
    Nat.lt_of_le_of_lt (accounts.gates_reached gate member).le inRange
  refine ⟨⟨fresh ++ users, tops ++ newTops, splits ++ newSplits, ?_⟩, within, found⟩
  constructor
  case right => exact ⟨working.improved, working.depths⟩
  case extended => exact Circuit.extends_trans extended further
  case counts => exact (counts.of_extends further).of_inherits working.inherits
  case listed => exact listed
  case exact =>
    intro id below
    rw [working.inherits.same id (Nat.lt_of_lt_of_le below (Circuit.size_le_of_extends extended))]
    exact exact id below
  case once =>
    rw [List.nodup_append]
    refine ⟨reduced.once, ledger.once, ?_⟩
    intro top isTop other isOther same
    subst same
    obtain ⟨form, formFound, _⟩ := reduced.replaced top isTop
    rw [(ledger.replaced top isOther).2.1] at formFound
    contradiction
  case formed =>
    intro id form formFound
    rcases ledger.formed id form formFound with older | ⟨called, isNew⟩
    · obtain ⟨demanded, isNew⟩ := reduced.formed id form older
      exact ⟨demanded.mono allInRange (List.subset_append_left roots [root]), isNew⟩
    · exact ⟨called.demanded isRoot total inRange, isNew⟩
  case replaced =>
    intro top member
    cases List.mem_append.mp member with
    | inl older =>
      obtain ⟨form, formFound, moved⟩ := reduced.replaced top older
      exact ⟨form, within top form formFound, moved⟩
    | inr isNew => exact (ledger.replaced top isNew).2.2
  case kept =>
    intro id formFound
    rcases before id id formFound with older | absent
    · exact (reduced.kept id older).of_within within
    · exact ledger.kept id absent formFound
  case changed =>
    intro id form formFound moved
    rcases before id form formFound with older | absent
    · exact reduced.changed id form older moved
    · exact ledger.changed id form absent formFound moved
  case absorbed =>
    intro split member
    cases List.mem_append.mp member with
    | inl older => exact (reduced.absorbed split older).mono (List.prefix_append roots [root])
    | inr isNew => exact ledger.absorbed isRoot total split isNew
  case used =>
    intro id
    have older := reduced.used id
    have isNew := ledger.used id
    simp only [List.count_append, Circuit.usesBy_append] at older isNew ⊢
    omega
  case trades =>
    have traded := reduced.trades.trans extended further within gatesInRange accounts.trades
    refine traded.of_perm (List.perm_iff_count.mpr fun gate => ?_)
    simp only [List.count_append]
    omega
  case cost => exact reduced.cost_after further inRange accounts counts rootCounted

theorem reduceAll_reduced {start circuit : Circuit} {roots : List Nat} {balancer : Balancer}
    {users tops splits : List Nat} (rootsInRange : ∀ root ∈ roots, root < start.size)
    (reduced : Reduced start roots circuit balancer users tops splits) {rest : List Nat}
    (restInRange : ∀ root ∈ rest, root < start.size) :
    Yields (rest.mapM reduce balancer) circuit fun reply grown =>
      (∃ users tops splits, Reduced start (roots ++ rest) grown reply.2 users tops splits) ∧
        balancer.forms.Within reply.2.forms ∧
        List.Forall₂ (fun root form => reply.2.forms[root]? = some form) rest reply.1 := by
  induction rest generalizing roots circuit balancer users tops splits with
  | nil =>
    refine .intro rfl ⟨⟨users, tops, splits, ?_⟩, Forms.within_refl _, .nil⟩
    rwa [List.append_nil]
  | cons root rest ih =>
    obtain ⟨inRange, laterInRange⟩ := List.forall_mem_cons.mp restInRange
    rw [List.mapM_cons]
    refine .memory_bind (reduce_reduced rootsInRange reduced inRange) ?_
    intro form later next finished
    obtain ⟨⟨users, tops, splits, reducedNext⟩, within, found⟩ := finished
    have moreInRange : ∀ other ∈ roots ++ [root], other < start.size := by
      simpa [or_imp, forall_and] using And.intro rootsInRange inRange
    refine .memory_bind (ih moreInRange reducedNext laterInRange) ?_
    intro forms last grown finished
    obtain ⟨reducedLast, withinLast, founds⟩ := finished
    rw [List.append_assoc] at reducedLast
    exact .intro rfl ⟨reducedLast, within.trans withinLast,
      .cons (withinLast root form found) founds⟩

-- No product is kept above a node that is replaced.
def ChainsSettled (circuit : Circuit) (forms : Forms) : Prop :=
  ∀ id left right other form : Nat, circuit.node? id = some (.product left right) →
    forms[id]? = some id → circuit.Reaches id other → forms[other]? = some form → form = other

def Stands (circuit : Circuit) (forms : Forms) (id : Nat) : Prop :=
  forms[id]? = some id ∨ ∃ product left right,
    circuit.node? product = some (.product left right) ∧ forms[product]? = some product ∧
      circuit.Reaches product id

theorem Stands.child {circuit : Circuit} {forms : Forms} {id child : Nat}
    (kept : ∀ id : Nat, forms[id]? = some id → Keeps circuit forms id)
    (stands : Stands circuit forms id) (uses : child ∈ circuit.children id) :
    Stands circuit forms child := by
  rcases stands with form | ⟨product, left, right, isProduct, form, reaches⟩
  · by_cases splits : ∃ left right, circuit.node? id = some (.product left right)
    · obtain ⟨left, right, isProduct⟩ := splits
      exact .inr ⟨id, left, right, isProduct, form, .step uses (.refl child)⟩
    · simp only [not_exists] at splits
      exact .inl (kept id form splits child uses)
  · exact .inr ⟨product, left, right, isProduct, form, reaches.child uses⟩

theorem Stands.form_eq {circuit : Circuit} {forms : Forms} {id form : Nat}
    (settled : ChainsSettled circuit forms) (stands : Stands circuit forms id)
    (found : forms[id]? = some form) : form = id := by
  rcases stands with same | ⟨product, left, right, isProduct, kept, reaches⟩
  · exact Option.some.inj (found.symm.trans same)
  · exact settled product left right id form isProduct kept reaches found

section Results

variable {start grown : Circuit} {roots results : List Nat} {balancer : Balancer}
  {users tops splits : List Nat}

theorem Reduced.uses_le_one (reduced : Reduced start roots grown balancer users tops splits)
    (inRange : ∀ root ∈ roots, root < start.size) (known : start.SharingKnown roots) {split : Nat}
    (member : split ∈ splits) : start.usesBy users split ≤ 1 := by
  rw [← Circuit.usesBelow_eq inRange reduced.counts.once reduced.listed]
  exact ((reduced.absorbed split member).sole known).2

theorem Reduced.not_demanded (reduced : Reduced start roots grown balancer users tops splits)
    (inRange : ∀ root ∈ roots, root < start.size) (known : start.SharingKnown roots) {split : Nat}
    (member : split ∈ splits) : ¬ Demanded start roots split := by
  intro demanded
  have absorbed := reduced.absorbed split member
  obtain ⟨left, right, isProduct⟩ := absorbed.product
  obtain ⟨notRoot, few⟩ := absorbed.sole known
  rcases demanded.reason with isRoot | shared | single | other
  · exact notRoot isRoot
  · omega
  · exact single left right isProduct
  · obtain ⟨other, otherBelow, otherUses, unsplit⟩ := other
    obtain ⟨earlier, user, first, second, isPrefix, _, below, found, uses⟩ := absorbed.split
    have same := Circuit.eq_of_sole_use (reduced.uses_le_one inRange known member)
      ((reduced.listed user).mpr (below.mono isPrefix.subset)) ((reduced.listed other).mpr otherBelow)
      uses otherUses
    exact unsplit first second (same ▸ found)

theorem Reduced.gates_below (reduced : Reduced start roots grown balancer users tops splits) :
    ∀ gate ∈ tops ++ splits, start.Below roots gate := by
  intro gate member
  cases List.mem_append.mp member with
  | inl isTop =>
    obtain ⟨form, found, _⟩ := reduced.replaced gate isTop
    exact (reduced.formed gate form found).1.reached
  | inr isSplit =>
    obtain ⟨earlier, user, _, _, isPrefix, _, below, _, uses⟩ := (reduced.absorbed gate isSplit).split
    obtain ⟨root, isRoot, reaches⟩ := below.mono isPrefix.subset
    exact ⟨root, isRoot, reaches.child uses⟩

theorem Reduced.nodup (reduced : Reduced start roots grown balancer users tops splits)
    (inRange : ∀ root ∈ roots, root < start.size) (known : start.SharingKnown roots) :
    (tops ++ splits).Nodup := by
  apply Circuit.nodup_of_sole_use reduced.once
  · intro split isSplit isTop
    obtain ⟨form, found, _⟩ := reduced.replaced split isTop
    exact reduced.not_demanded inRange known isSplit (reduced.formed split form found).1
  · intro split isSplit
    obtain ⟨left, right, found⟩ := (reduced.absorbed split isSplit).product
    exact Circuit.lt_size_of_node? found
  · exact reduced.used
  · intro split isSplit gates once chosen
    have counted : gates ⊆ users := fun gate member =>
      (reduced.listed gate).mpr (reduced.gates_below gate (chosen member))
    exact Nat.le_trans (Circuit.usesBy_le_of_subset once counted split)
      (reduced.uses_le_one inRange known isSplit)

theorem Reduced.of_below {P : Nat → Prop}
    (reduced : Reduced start roots grown balancer users tops splits)
    (found : List.Forall₂ (fun root form => balancer.forms[root]? = some form) roots results)
    (kept : ∀ id : Nat, balancer.forms[id]? = some id → P id)
    (inherited : ∀ id < start.size, P id → ∀ child ∈ start.children id, P child) {id : Nat}
    (below : grown.Below results id) (older : id < start.size) : P id := by
  obtain ⟨result, member, reaches⟩ := below
  have closed : ∀ node, (node < start.size → P node) → ∀ child ∈ grown.children node,
      child < start.size → P child := by
    intro node holds child uses childOlder
    by_cases nodeOlder : node < start.size
    · rw [Circuit.children_of_extends reduced.extended nodeOlder] at uses
      exact inherited node nodeOlder (holds nodeOlder) child uses
    · have present : node < grown.size := by
        by_contra missing
        rw [Circuit.children, Circuit.node?, Array.getElem?_eq_none (Nat.le_of_not_lt missing)] at uses
        simp at uses
      have gained : node ∈ start.gained grown :=
        Circuit.mem_gained.mpr ⟨Nat.le_of_not_lt nodeOlder, present⟩
      rcases reduced.trades.edges node gained child uses with isGained | ⟨old, form⟩
      · have above := (Circuit.mem_gained.mp isGained).1
        omega
      · rcases (reduced.formed old child form).2 with rfl | isNew
        · exact kept child form
        · omega
  refine reaches.of_closed closed ?_ older
  intro resultOlder
  obtain ⟨root, _, form⟩ := exists_of_mem_forall₂ found member
  rcases (reduced.formed root result form).2 with rfl | isNew
  · exact kept result form
  · omega

theorem Reduced.below_roots (reduced : Reduced start roots grown balancer users tops splits)
    (found : List.Forall₂ (fun root form => balancer.forms[root]? = some form) roots results)
    {id : Nat} (below : grown.Below results id) (older : id < start.size) : start.Below roots id := by
  refine reduced.of_below found ?_ ?_ below older
  · exact fun other form => (reduced.formed other other form).1.reached
  · intro other _ otherBelow child uses
    obtain ⟨root, member, reaches⟩ := otherBelow
    exact ⟨root, member, reaches.child uses⟩

theorem Reduced.user_of_split (reduced : Reduced start roots grown balancer users tops splits)
    (inRange : ∀ root ∈ roots, root < start.size) (known : start.SharingKnown roots) {split user : Nat}
    (member : split ∈ splits) (below : start.Below roots user)
    (uses : split ∈ start.children user) : user ∈ tops ++ splits := by
  have used : 0 < start.usesBy (tops ++ splits) split :=
    Nat.lt_of_lt_of_le (List.count_pos_iff.mpr member) (reduced.used split)
  obtain ⟨gate, isGate, gateUses⟩ := List.mem_flatMap.mp (List.count_pos_iff.mp used)
  have same := Circuit.eq_of_sole_use (reduced.uses_le_one inRange known member)
    ((reduced.listed gate).mpr (reduced.gates_below gate isGate)) ((reduced.listed user).mpr below)
    gateUses uses
  exact same ▸ isGate

theorem Reduced.not_gate_of_form (reduced : Reduced start roots grown balancer users tops splits)
    (inRange : ∀ root ∈ roots, root < start.size) (known : start.SharingKnown roots) {id : Nat}
    (form : balancer.forms[id]? = some id) : id ∉ tops ++ splits := by
  intro member
  cases List.mem_append.mp member with
  | inl isTop =>
    obtain ⟨other, found, moved⟩ := reduced.replaced id isTop
    exact moved (Option.some.inj (found.symm.trans form))
  | inr isSplit => exact reduced.not_demanded inRange known isSplit (reduced.formed id id form).1

-- The way down from a result leads over kept nodes only: a replaced node would have to be the child
-- of a kept one, and a split product that of its only user.
theorem Reduced.not_replaced (reduced : Reduced start roots grown balancer users tops splits)
    (found : List.Forall₂ (fun root form => balancer.forms[root]? = some form) roots results)
    (inRange : ∀ root ∈ roots, root < start.size) (known : start.SharingKnown roots)
    (settled : ChainsSettled start balancer.forms) {id : Nat} (below : grown.Below results id)
    (older : id < start.size) : id ∉ tops ++ splits := by
  have standing := reduced.of_below
    (P := fun id => start.Below roots id ∧ id ∉ tops ++ splits ∧ Stands start balancer.forms id)
    found ?_ ?_ below older
  · exact standing.2.1
  · intro node form
    exact ⟨(reduced.formed node node form).1.reached,
      reduced.not_gate_of_form inRange known form, .inl form⟩
  · intro node _ holds child uses
    obtain ⟨nodeBelow, notGate, stands⟩ := holds
    obtain ⟨root, isRoot, reaches⟩ := nodeBelow
    have childStands := stands.child reduced.kept uses
    refine ⟨⟨root, isRoot, reaches.child uses⟩, fun member => ?_, childStands⟩
    cases List.mem_append.mp member with
    | inl isTop =>
      obtain ⟨form, formFound, moved⟩ := reduced.replaced child isTop
      exact moved (childStands.form_eq settled formFound)
    | inr isSplit =>
      exact notGate (reduced.user_of_split inRange known isSplit ⟨root, isRoot, reaches⟩ uses)

theorem Reduced.count_results (reduced : Reduced start roots grown balancer users tops splits)
    (inRange : ∀ result ∈ results, result < grown.size) (kinds : GateSet) :
    ∃ (after : Nat) (older : List Nat), grown.gateCount? results kinds = some after ∧ older.Nodup ∧
      (∀ id ∈ older, id < start.size ∧ grown.Below results id) ∧
      after ≤ older.countP (start.isGate kinds) + (start.gained grown).countP (grown.isGate kinds) := by
  obtain ⟨ids, counted, once, listed⟩ := Circuit.gateCount?_eq inRange kinds
  have olderOnly : ∀ id ∈ ids.filter (· < start.size), id < start.size ∧ grown.Below results id := by
    intro id member
    obtain ⟨isListed, older⟩ := List.mem_filter.mp member
    exact ⟨by simpa using older, (listed id).mp isListed⟩
  refine ⟨_, ids.filter (· < start.size), counted, once.filter _, olderOnly, ?_⟩
  have newer : ids.filter (fun id => !decide (id < start.size)) ⊆ start.gained grown := by
    intro id member
    obtain ⟨isListed, notOlder⟩ := List.mem_filter.mp member
    obtain ⟨result, isResult, reaches⟩ := (listed id).mp isListed
    exact Circuit.mem_gained.mpr
      ⟨by simpa using notOlder, Nat.lt_of_le_of_lt reaches.le (inRange result isResult)⟩
  have sameOlder := Circuit.countP_isGate_of_extends reduced.extended kinds
    fun id member => (olderOnly id member).1
  have fewNewer := ((once.filter fun id => !decide (id < start.size)).subperm newer).countP_le
    (grown.isGate kinds)
  rw [← sameOlder]
  refine Nat.le_trans (Nat.le_of_eq ?_) (Nat.add_le_add_left fewNewer _)
  have parted := (List.filter_append_perm (fun id => decide (id < start.size)) ids).countP_eq
    (grown.isGate kinds)
  rw [← parted, List.countP_append]

end Results

theorem reduceAll_keeps_sharing (log : Log) {circuit : Circuit} {roots : List Nat}
    (inRange : ∀ root ∈ roots, root < circuit.size) :
    ∃ forms later grown, roots.mapM reduce (fresh log) circuit = some ((forms, later), grown) ∧
      Pipeline.reduceAll roots log circuit = some ((forms, later.memory.log), grown) ∧
      ∀ kinds : GateSet, ∃ before after, circuit.gateCount? roots kinds = some before ∧
        grown.gateCount? forms kinds = some after ∧
        after ≤ before + (roots.map fun root => (circuit.gateCount? [root] kinds).getD 0).sum ∧
        (circuit.SharingKnown roots → ChainsSettled circuit later.forms → after ≤ before) := by
  obtain ⟨⟨forms, later⟩, grown, gives, ⟨users, tops, splits, reduced⟩, _, found⟩ :=
    reduceAll_reduced (by simp) (fresh_reduced log circuit) inRange
  rw [List.nil_append] at reduced
  refine ⟨forms, later, grown, gives, ?_, fun kinds => ?_⟩
  · change (roots.mapM reduce (fresh log) circuit).bind _ = _
    rw [gives]
    rfl
  have formsInRange : ∀ form ∈ forms, form < grown.size := by
    intro form member
    obtain ⟨root, _, rootForm⟩ := exists_of_mem_forall₂ found member
    obtain ⟨_, _, _, denotes, _⟩ := reduced.right.improved root form rootForm
    exact Circuit.lt_size_of_denotes denotes
  obtain ⟨after, older, counted, once, isOlder, few⟩ := reduced.count_results formsInRange kinds
  have olderBelow : ∀ id ∈ older, circuit.Below roots id := fun id member =>
    reduced.below_roots found (isOlder id member).2 (isOlder id member).1
  obtain ⟨before, countedBefore, olderLess⟩ :=
    Circuit.countP_le_gateCount? inRange once olderBelow kinds
  refine ⟨before, after, countedBefore, counted, ?_, fun known settled => ?_⟩
  · have cost := reduced.cost kinds
    omega
  · have apart : (older ++ (tops ++ splits)).Nodup := by
      refine List.nodup_append.mpr ⟨once, reduced.nodup inRange known, ?_⟩
      intro id isOld gate isGate same
      subst same
      exact reduced.not_replaced found inRange known settled (isOlder id isOld).2 (isOlder id isOld).1
        isGate
    obtain ⟨total, countedTotal, allLess⟩ := Circuit.countP_le_gateCount? inRange apart
      (fun id member => (List.mem_append.mp member).elim (olderBelow id) (reduced.gates_below id)) kinds
    obtain rfl := Option.some.inj (countedTotal.symm.trans countedBefore)
    have traded := reduced.trades.counts kinds
    rw [List.countP_append] at allLess
    omega

def sharedChain : Circuit where
  nodes := #[.input "a", .input "b", .input "c", .input "d", .input "e", .product 0 1, .product 5 2,
    .product 6 3, .sum 7 4, .shift .left 7 2]
  earlier := by decide

theorem sharedChain_inner : ∀ id < 7, sharedChain.isGate .all id = true →
    id ∉ [8, 9] ∧ sharedChain.usesBy (List.range 10) id ≤ 1 ∧ sharedChain.isProduct id = true ∧
      ∀ user < 10, id ∈ sharedChain.children user → sharedChain.isProduct user = true := by
  decide

theorem sharedChain_product : ∀ id < 10, sharedChain.isProduct id = true → id ≤ 7 := by
  decide

theorem sharedChain_known : sharedChain.SharingKnown [8, 9] := by
  intro earlier user left right id first second _ _ found uses isProduct shared
  have userSmall := sharedChain_product user (Circuit.lt_size_of_node? found)
    (Circuit.isProduct_iff.mpr ⟨left, right, found⟩)
  have below := sharedChain.lt_of_mem_children uses
  have isGate : sharedChain.isGate .all id = true := by
    rw [Circuit.isGate, isProduct]
    rfl
  obtain ⟨notRoot, few, _⟩ := sharedChain_inner id (by omega) isGate
  have inRange : ∀ root ∈ [8, 9], root < sharedChain.size := by decide
  have atMost : sharedChain.usesBelow [8, 9] id ≤ 1 :=
    Nat.le_trans (Circuit.usesBelow_le inRange id) few
  rcases shared with isRoot | several
  · exact absurd isRoot notRoot
  · omega

theorem sharedChain_settled {circuit : Circuit} {balancer : Balancer} {users tops splits : List Nat}
    (reduced : Reduced sharedChain [8, 9] circuit balancer users tops splits) :
    ChainsSettled sharedChain balancer.forms := by
  intro id left right other form found kept reaches otherFound
  by_contra moved
  have inRange : ∀ root ∈ [8, 9], root < sharedChain.size := by decide
  have idSmall := sharedChain_product id (Circuit.lt_size_of_node? found)
    (Circuit.isProduct_iff.mpr ⟨left, right, found⟩)
  have below := reaches.le
  by_cases same : other = id
  · subst same
    exact moved (Option.some.inj (otherFound.symm.trans kept))
  · obtain ⟨notRoot, few, single, allSplit⟩ :=
      sharedChain_inner other (by omega) (reduced.changed other form otherFound moved)
    have atMost := Circuit.usesBelow_le inRange other
    rcases (reduced.formed other form otherFound).1.reason with isRoot | shared | whole | called
    · exact notRoot isRoot
    · have total : sharedChain.usesBelow [8, 9] other ≤ 1 := Nat.le_trans atMost few
      omega
    · obtain ⟨first, second, isProduct⟩ := Circuit.isProduct_iff.mp single
      exact whole first second isProduct
    · obtain ⟨user, ⟨root, isRoot, userReached⟩, uses, unsplit⟩ := called
      have userInRange : user < 10 := Nat.lt_of_le_of_lt userReached.le (inRange root isRoot)
      obtain ⟨first, second, isProduct⟩ := Circuit.isProduct_iff.mp (allSplit user userInRange uses)
      exact unsplit first second isProduct

theorem reduceAll_shared_chain :
    ∃ forms later grown, [8, 9].mapM reduce (fresh .off) sharedChain = some ((forms, later), grown) ∧
      ∀ kinds : GateSet, ∃ before after, sharedChain.gateCount? [8, 9] kinds = some before ∧
        grown.gateCount? forms kinds = some after ∧ after ≤ before := by
  have inRange : ∀ root ∈ [8, 9], root < sharedChain.size := by decide
  obtain ⟨forms, later, grown, gives, _, counts⟩ := reduceAll_keeps_sharing .off inRange
  obtain ⟨_, _, same, ⟨users, tops, splits, reduced⟩, _, _⟩ :=
    reduceAll_reduced (by simp) (fresh_reduced .off sharedChain) inRange
  obtain ⟨rfl, rfl⟩ := Prod.mk.inj (Option.some.inj (gives.symm.trans same))
  refine ⟨forms, later, grown, gives, fun kinds => ?_⟩
  obtain ⟨before, after, countedBefore, counted, _, atMost⟩ := counts kinds
  exact ⟨before, after, countedBefore, counted, atMost sharedChain_known (sharedChain_settled reduced)⟩

end Balancer

end ArithCircuit
