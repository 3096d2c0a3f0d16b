import ArithCircuit.Proofs.Fabric

set_option autoImplicit false

namespace ArithCircuit

-- A sum or product that has several users below all outputs has several users already below the
-- outputs up to the first one under which it stands.
def Circuit.SharedAtOnce (circuit : Circuit) (roots : List Nat) : Prop :=
  ∀ earlier id, earlier <+: roots → circuit.Below earlier id → circuit.isGate .arithmetic id = true →
    2 ≤ circuit.usesBelow roots id → 2 ≤ circuit.usesBelow earlier id

theorem Circuit.SharedAtOnce.of_begun {circuit : Circuit} {roots more : List Nat}
    (known : circuit.SharedAtOnce more) (inRange : ∀ root ∈ more, root < circuit.size)
    (isPrefix : roots <+: more) : circuit.SharedAtOnce roots := by
  intro earlier id isEarlier below isGate several
  exact known earlier id (isEarlier.trans isPrefix) below isGate
    (Nat.le_trans several (usesBelow_mono inRange isPrefix.subset id))

namespace Factorizer

-- The `users` are the nodes below the outputs so far. Among them are the nodes that have a form, and
-- the forms of the sums and products that they use several times are shared.
structure Tracked (start : Circuit) (users : List Nat) (fanOut : FanOut) (forms : Forms) : Prop where
  counts : FanOut.Counts start fanOut users
  keyed : ∀ id form : Nat, forms[id]? = some form → id ∈ users
  marked : ∀ id form : Nat, forms[id]? = some form → start.isGate .arithmetic id = true →
    2 ≤ start.usesBy users id → fanOut.isShared form = true

section Uses

variable {start circuit : Circuit} {fanOut : FanOut} {forms : Forms} {woven heads users : List Nat}

theorem Woven.usesBy_forms (fabric : Woven start circuit fanOut forms woven heads)
    {nodes products : List Nat}
    (formed : List.Forall₂ (fun node product : Nat =>
      start.isProduct node = true ∧ forms[node]? = some product) nodes products) (id : Nat) :
    circuit.usesBy products id =
      (nodes.flatMap start.children).countP (fun child => forms[child]? = some id) := by
  induction formed with
  | nil => rfl
  | cons here _ ih =>
    obtain ⟨isProduct, form⟩ := here
    obtain ⟨left, right, found⟩ := Circuit.isProduct_iff.mp isProduct
    obtain ⟨_, first, second, leftForm, rightForm, formFound⟩ := fabric.linked _ _ left right form found
    rw [Circuit.usesBy_cons, List.flatMap_cons, List.countP_append, ih, Circuit.children_of_node? found,
      Circuit.children_of_node? formFound]
    simp [Node.children, List.count_cons, List.countP_cons, leftForm, rightForm]

theorem Woven.usesBy_forms_le (fabric : Woven start circuit fanOut forms woven heads)
    (tracked : Tracked start users fanOut forms) {nodes products : List Nat} (once : products.Nodup)
    (formed : List.Forall₂ (fun node product : Nat =>
      start.isProduct node = true ∧ forms[node]? = some product) nodes products)
    {key id : Nat} (form : forms[key]? = some id) (loose : Loose circuit fanOut id) :
    circuit.usesBy products id ≤ 1 := by
  have nodesOnce : nodes.Nodup := by
    have looked : nodes.map (fun node => forms[node]?) = products.map some := by
      rw [← List.forall₂_eq_eq_eq, List.forall₂_map_left_iff, List.forall₂_map_right_iff]
      exact formed.imp fun _ _ here => here.2
    refine List.Nodup.of_map (fun node => forms[node]?) ?_
    rw [looked]
    exact once.map (Option.some_injective Nat)
  have counted : nodes ⊆ users := by
    intro node member
    obtain ⟨product, _, _, found⟩ := exists_of_mem_forall₂ formed.flip member
    exact tracked.keyed node product found
  have few : start.usesBy users key ≤ 1 := by
    by_contra several
    have shared := tracked.marked key id form (fabric.arithmetic_of_form form loose.1) (by omega)
    rw [loose.2] at shared
    contradiction
  rw [fabric.usesBy_forms formed]
  calc (nodes.flatMap start.children).countP (fun child => forms[child]? = some id)
    _ ≤ start.usesBy nodes key := by
      refine List.countP_mono_left fun child _ isForm => ?_
      have found : forms[child]? = some id := by simpa using isForm
      exact beq_iff_eq.mpr (fabric.sole child key id found form loose)
    _ ≤ start.usesBy users key := Circuit.usesBy_le_of_subset nodesOnce counted key
    _ ≤ 1 := few

theorem Woven.unused_of_form (fabric : Woven start circuit fanOut forms woven heads) {key id : Nat}
    (form : forms[key]? = some id) (loose : Loose circuit fanOut id) :
    circuit.usesBy woven id = 0 := by
  have balanced := fabric.balanced id loose
  by_cases isProduct : start.isProduct key = true
  · obtain ⟨left, right, found⟩ := Circuit.isProduct_iff.mp isProduct
    rw [List.count_eq_zero.mpr (fabric.linked key id left right form found).1] at balanced
    omega
  · have isHead := (fabric.others key id form (by simpa using isProduct) loose.1).2.1 loose.2
    have handed := List.count_pos_iff.mpr isHead
    have atMost := List.nodup_iff_count_le_one.mp fabric.once id
    omega

theorem Woven.usesBy_le_one (fabric : Woven start circuit fanOut forms woven heads)
    (tracked : Tracked start users fanOut forms) {products : List Nat} (once : products.Nodup)
    (live : ∀ product ∈ products, Live start forms woven product) {id : Nat}
    (loose : Loose circuit fanOut id) : circuit.usesBy products id ≤ 1 := by
  have balanced := fabric.balanced id loose
  have atMost := List.nodup_iff_count_le_one.mp fabric.once id
  have parted := @Circuit.usesBy_of_perm circuit _ _
    (List.filter_append_perm (fun product => decide (product ∈ woven)) products) id
  rw [Circuit.usesBy_append] at parted
  have fromWoven : circuit.usesBy (products.filter fun product => decide (product ∈ woven)) id ≤
      circuit.usesBy woven id :=
    Circuit.usesBy_le_of_subset (once.filter _)
      (fun product member => by simpa using (List.mem_filter.mp member).2) id
  have restFormed : ∀ product ∈ products.filter fun product => !decide (product ∈ woven),
      ∃ node : Nat, start.isProduct node = true ∧ forms[node]? = some product := by
    intro product member
    obtain ⟨isListed, notWoven⟩ := List.mem_filter.mp member
    exact (live product isListed).resolve_left (by simpa using notWoven)
  obtain ⟨nodes, formed⟩ := exists_forall₂ restFormed
  have fromForms := fabric.usesBy_forms formed.flip id
  by_cases isForm : ∃ key : Nat, forms[key]? = some id
  · obtain ⟨key, form⟩ := isForm
    have few := fabric.usesBy_forms_le tracked (once.filter _) formed.flip form loose
    have unused := fabric.unused_of_form form loose
    omega
  · have none : (nodes.flatMap start.children).countP (fun child => forms[child]? = some id) = 0 :=
      List.countP_eq_zero.mpr fun child _ found => isForm ⟨child, by simpa using found⟩
    omega

theorem Woven.factors_linear (fabric : Woven start circuit fanOut forms woven heads)
    (tracked : Tracked start users fanOut forms) {id left right : Nat}
    (live : Live start forms woven id) (found : circuit.node? id = some (.product left right)) :
    ∃ splits factors gates, fanOut.factors? circuit id = some factors ∧
      circuit.Cut .mul splits factors id ∧ splits.Nodup ∧
      circuit.gateCount? [id] (.single (.binary .mul)) = some gates ∧ factors.length ≤ gates + 1 := by
  obtain ⟨splits, factors, split, cut, isOpen, _⟩ := Circuit.chain?_cut fanOut.isShared found
  have allLive := (fabric.live_of_cut live cut).1
  have loose : ∀ other ∈ splits, Loose circuit fanOut other := by
    intro other member
    refine ⟨Circuit.isProduct_iff.mpr ?_, (isOpen other member).2⟩
    exact cut.split_found other (List.mem_cons_of_mem id member)
  have edges : (splits ++ factors).Perm ((id :: splits).flatMap circuit.children) :=
    cut.perm_children.cons_inv
  have once : (id :: splits).Nodup := by
    apply @Circuit.nodup_of_sole_use circuit [id] splits (List.nodup_singleton id)
    · intro other member same
      have smaller := (isOpen other member).1
      have isTop := List.mem_singleton.mp same
      omega
    · exact fun other member => Circuit.lt_size_of_isProduct (loose other member).1
    · intro other
      have counted := edges.count_eq other
      rw [List.count_append] at counted
      exact Nat.le_trans (Nat.le_add_right _ _) (Nat.le_of_eq counted)
    · exact fun other member products productsOnce chosen =>
        fabric.usesBy_le_one tracked productsOnce
          (fun product isChosen => allLive product (chosen isChosen)) (loose other member)
  have inRange : ∀ root ∈ [id], root < circuit.size := by
    simpa using Circuit.lt_size_of_node? found
  have below : ∀ split ∈ id :: splits, circuit.Below [id] split := fun other member =>
    ⟨id, List.mem_singleton_self id, cut.reaches_split other member⟩
  obtain ⟨gates, counted, atMost⟩ := Circuit.countP_le_gateCount? inRange once below
    (.single (.binary .mul))
  rw [Circuit.countP_isGate_of_products _ cut.split_found] at atMost
  refine ⟨id :: splits, factors, gates, split, cut, once, counted, ?_⟩
  rw [cut.length_eq]
  exact Nat.succ_le_succ atMost

end Uses

section Tracking

variable {start circuit : Circuit} {roots users : List Nat} {fanOut counted : FanOut} {forms : Forms}
  {root : Nat}

theorem Tracked.insert {id form : Nat} (tracked : Tracked start users fanOut forms)
    (isUser : id ∈ users) : Tracked start users (fanOut.inherit id form) (forms.insert id form) := by
  have inherits : FanOut.Inherits 0 fanOut (fanOut.inherit id form) :=
    FanOut.inherit_inherits (.inr (Nat.zero_le form))
  refine ⟨tracked.counts.of_inherits inherits, ?_, ?_⟩
  · intro other value found
    rcases found_in_insert found with ⟨rfl, _⟩ | older
    · exact isUser
    · exact tracked.keyed other value older
  · intro other value found isGate several
    rcases found_in_insert found with ⟨rfl, rfl⟩ | older
    · have shared : 2 ≤ fanOut.usesOf id := Nat.le_trans several (tracked.counts.uses id)
      exact FanOut.isShared_inherit (decide_eq_true shared) form
    · exact inherits.isShared_of_isShared (tracked.marked other value older isGate several)

theorem Tracked.count (tracked : Tracked start users fanOut forms)
    (listed : ∀ id, id ∈ users ↔ start.Below roots id) (extended : start.Extends circuit)
    (inRange : ∀ other ∈ roots ++ [root], other < start.size)
    (known : start.SharedAtOnce (roots ++ [root]))
    (counting : fanOut.count? circuit root = some counted) :
    ∃ users, Tracked start users counted forms ∧
      (∀ id, id ∈ users ↔ start.Below (roots ++ [root]) id) ∧
      ∀ id, fanOut.isShared id = true → counted.isShared id = true := by
  have rootInRange : root < start.size := inRange root (by simp)
  obtain ⟨fresh, counts, rootCounted, reached, uses⟩ :=
    FanOut.count?_counts (tracked.counts.of_extends extended)
      (Nat.lt_of_lt_of_le rootInRange (Circuit.size_le_of_extends extended)) counting
  have listedAfter := FanOut.listed_after extended rootInRange listed counts rootCounted reached
  have older : ∀ user ∈ fresh ++ users, user < start.size := by
    intro user member
    obtain ⟨other, isRoot, reaches⟩ := (listedAfter user).mp member
    exact Nat.lt_of_le_of_lt reaches.le (inRange other isRoot)
  have more : ∀ id, fanOut.isShared id = true → counted.isShared id = true := by
    intro id shared
    have total := uses id
    simp only [FanOut.isShared, decide_eq_true_eq] at shared ⊢
    omega
  refine ⟨fresh ++ users, ⟨counts.of_older extended older, ?_, ?_⟩, listedAfter, more⟩
  · exact fun id form found => List.mem_append_right fresh (tracked.keyed id form found)
  · intro id form found isGate several
    have below := (listed id).mp (tracked.keyed id form found)
    rw [← Circuit.usesBelow_eq inRange counts.once listedAfter] at several
    have before := known roots id (List.prefix_append roots [root]) below isGate several
    have rootsInRange : ∀ other ∈ roots, other < start.size :=
      fun other member => inRange other (List.mem_append_left _ member)
    rw [Circuit.usesBelow_eq rootsInRange tracked.counts.once listed] at before
    exact more form (tracked.marked id form found isGate before)

end Tracking

-- What holds of a factorizer all the time while it simplifies the outputs of a circuit.
structure Flat (start : Circuit) (users : List Nat) (circuit : Circuit) (factorizer : Factorizer) :
    Prop where
  right : Right circuit factorizer
  extended : start.Extends circuit
  tracked : Tracked start users factorizer.memory.fanOut factorizer.forms
  fabric : ∃ woven heads,
    Woven start circuit factorizer.memory.fanOut factorizer.forms woven heads

section Runs

variable {start circuit : Circuit} {users roots : List Nat} {factorizer : Factorizer} {root : Nat}

theorem Flat.closed (flat : Flat start users circuit factorizer) :
    ∀ id ∈ users, ∀ child ∈ circuit.children id, child ∈ users := by
  intro id isUser child uses
  rw [Circuit.children_of_extends flat.extended (flat.tracked.counts.inRange id isUser)] at uses
  exact flat.tracked.counts.closed id isUser child uses

theorem rebuild_flat {present : Circuit} (begun : start.Extends present) {id : Nat}
    (isUser : id ∈ users) (isOpen : factorizer.forms[id]? = none)
    (ready : ∀ child ∈ present.children id, child ∈ factorizer.forms)
    (flat : Flat start users circuit factorizer) :
    Yields (rebuild factorizer.forms id factorizer.memory) circuit fun reply grown =>
      circuit.Extends grown ∧ Flat start users grown ⟨factorizer.forms.insert id reply.1, reply.2⟩ := by
  have inRange := flat.tracked.counts.inRange id isUser
  obtain ⟨formula, denotes⟩ := circuit.formula?_of_lt_size
    (Nat.lt_of_lt_of_le inRange (Circuit.size_le_of_extends flat.extended))
  rw [Circuit.children_of_extends begun inRange, ← Circuit.children_of_extends flat.extended inRange]
    at ready
  refine (rebuild_yields flat.right.related flat.right.memory denotes ready).mono ?_
  intro reply grown finished
  obtain ⟨form, memory⟩ := reply
  obtain ⟨further, memoryRight, ⟨result, formDenotes, restates⟩, sameFan, rebuilt⟩ := finished
  dsimp only at sameFan
  obtain ⟨woven, heads, fabric⟩ := flat.fabric
  obtain ⟨woven, heads, fabric⟩ := fabric.rebuild flat.extended isOpen inRange rebuilt
  have inherits : FanOut.Inherits 0 factorizer.memory.fanOut memory.fanOut :=
    sameFan ▸ FanOut.inherit_inherits (.inr (Nat.zero_le form))
  refine ⟨further, ⟨?_, memoryRight⟩, Circuit.extends_trans flat.extended further, ?_, woven, heads,
    fabric.share fun _ => inherits.isShared_of_isShared⟩
  · exact Forms.insert_related (Forms.related_of_extends further flat.right.related)
      ⟨formula, result, Circuit.denotes_of_extends further denotes, formDenotes, restates⟩
  · exact sameFan ▸ flat.tracked.insert isUser

theorem part_flat (flat : Flat start users circuit factorizer) (isUser : root ∈ users)
    {before after : List Nat}
    (split : schedule circuit.children factorizer.forms.contains root = before ++ after) :
    Yields (before.foldlM (Rewriter.step rebuild) factorizer) circuit fun current grown =>
      Flat start users grown current :=
  (Rewriter.part_yields (fun _ _ => circuit.lt_of_mem_children) flat.closed isUser
    (fun _ _ _ _ => rebuild_flat flat.extended) flat split).mono fun _ _ holds => holds.2.1

theorem run_flat (flat : Flat start users circuit factorizer) (isUser : root ∈ users) :
    Yields (Rewriter.run circuit.children rebuild root factorizer) circuit fun reply grown =>
      Flat start users grown reply.2 :=
  (Rewriter.run_yields (fun _ _ => circuit.lt_of_mem_children) flat.closed isUser
    (fun _ _ _ _ => rebuild_flat flat.extended) flat).mono fun _ _ holds => holds.2.1

structure Simplified (start : Circuit) (roots : List Nat) (circuit : Circuit) (factorizer : Factorizer)
    (users : List Nat) : Prop where
  flat : Flat start users circuit factorizer
  listed : ∀ id, id ∈ users ↔ start.Below roots id

theorem fresh_simplified (log : Log) (start : Circuit) :
    Simplified start [] start (fresh log) [] where
  flat := ⟨fresh_right log start, start.extends_refl,
    ⟨FanOut.empty_counts start, by simp [fresh, Rewriter.fresh], by simp [fresh, Rewriter.fresh]⟩,
    [], [], fresh_woven start .empty⟩
  listed := by simp [Circuit.Below]

theorem Simplified.count (simplified : Simplified start roots circuit factorizer users)
    (inRange : ∀ other ∈ roots ++ [root], other < start.size)
    (known : start.SharedAtOnce (roots ++ [root])) {counted : FanOut}
    (counting : factorizer.memory.fanOut.count? circuit root = some counted) :
    ∃ users, root ∈ users ∧ Simplified start (roots ++ [root]) circuit
      ⟨factorizer.forms, { factorizer.memory with fanOut := counted }⟩ users := by
  obtain ⟨flat, listed⟩ := simplified
  obtain ⟨woven, heads, fabric⟩ := flat.fabric
  obtain ⟨users, tracked, listedAfter, more⟩ :=
    flat.tracked.count listed flat.extended inRange known counting
  exact ⟨users, (listedAfter root).mpr ⟨root, by simp, .refl root⟩,
    ⟨⟨flat.right.related, flat.right.memory.equality, flat.right.memory.depths⟩, flat.extended, tracked,
      woven, heads, fabric.share more⟩, listedAfter⟩

theorem simplify_simplified (simplified : Simplified start roots circuit factorizer users)
    (inRange : ∀ other ∈ roots ++ [root], other < start.size)
    (known : start.SharedAtOnce (roots ++ [root])) :
    Yields (simplify root factorizer) circuit fun reply grown =>
      ∃ users, Simplified start (roots ++ [root]) grown reply.2 users := by
  have present := Nat.lt_of_lt_of_le (inRange root (by simp))
    (Circuit.size_le_of_extends simplified.flat.extended)
  obtain ⟨counted, counting⟩ := factorizer.memory.fanOut.exists_count? present
  obtain ⟨users, isUser, begun⟩ := simplified.count inRange known counting
  refine .memory_after (countUses_eq counting) (.memory_after rfl ?_)
  refine .memory_bind (run_flat begun.flat isUser) ?_
  intro form last grown flat
  refine .memory_after rfl (.intro rfl ⟨users, ⟨?_, flat.extended, flat.tracked, flat.fabric⟩, begun.listed⟩)
  exact ⟨flat.right.related, flat.right.memory.equality, flat.right.memory.depths⟩

theorem simplifyAll_simplified (simplified : Simplified start roots circuit factorizer users)
    {rest : List Nat} (inRange : ∀ other ∈ roots ++ rest, other < start.size)
    (known : start.SharedAtOnce (roots ++ rest)) :
    Yields (rest.mapM simplify factorizer) circuit fun reply grown =>
      ∃ users, Simplified start (roots ++ rest) grown reply.2 users := by
  induction rest generalizing roots circuit factorizer users with
  | nil =>
    rw [List.append_nil]
    exact .intro rfl ⟨users, simplified⟩
  | cons root rest ih =>
    have regrouped : roots ++ root :: rest = (roots ++ [root]) ++ rest := by simp
    rw [regrouped] at inRange known
    rw [List.mapM_cons]
    have isPrefix := List.prefix_append (roots ++ [root]) rest
    refine .memory_bind (simplify_simplified simplified
      (fun other member => inRange other (isPrefix.subset member))
      (known.of_begun inRange isPrefix)) ?_
    intro form later next finished
    obtain ⟨users, simplifiedNext⟩ := finished
    refine .memory_bind (ih simplifiedNext inRange known) ?_
    intro forms last grown finished
    exact .intro rfl (regrouped ▸ finished)

end Runs

-- In every state of a call, before or after any part of its run, the rewritten products are split into
-- few factors.
theorem flattening_stays_linear (log : Log) {circuit : Circuit} {earlier : List Nat} {root : Nat}
    (inRange : ∀ other ∈ earlier ++ [root], other < circuit.size)
    (known : circuit.SharedAtOnce (earlier ++ [root])) :
    ∃ forms factorizer present counted,
      earlier.mapM simplify (fresh log) circuit = some ((forms, factorizer), present) ∧
      factorizer.memory.fanOut.count? present root = some counted ∧
      ∀ before after,
        schedule present.children factorizer.forms.contains root = before ++ after →
        ∃ current grown,
          before.foldlM (Rewriter.step rebuild)
            ⟨factorizer.forms, { factorizer.memory with fanOut := counted }⟩ present =
              some (current, grown) ∧
          ∀ id side left right : Nat, current.forms[id]? = some side →
            grown.node? side = some (.product left right) →
            ∃ splits factors gates, current.memory.fanOut.factors? grown side = some factors ∧
              grown.Cut .mul splits factors side ∧ splits.Nodup ∧
              grown.gateCount? [side] (.single (.binary .mul)) = some gates ∧
              factors.length ≤ gates + 1 := by
  have isPrefix := List.prefix_append earlier [root]
  obtain ⟨⟨forms, factorizer⟩, present, gives, users, simplified⟩ :=
    simplifyAll_simplified (fresh_simplified log circuit)
      (fun other member => inRange other (isPrefix.subset member)) (known.of_begun inRange isPrefix)
  rw [List.nil_append] at simplified
  have rootInRange := Nat.lt_of_lt_of_le (inRange root (by simp))
    (Circuit.size_le_of_extends simplified.flat.extended)
  obtain ⟨counted, counting⟩ := factorizer.memory.fanOut.exists_count? rootInRange
  obtain ⟨users, isUser, begun⟩ := simplified.count inRange known counting
  refine ⟨forms, factorizer, present, counted, gives, counting, fun before after split => ?_⟩
  obtain ⟨current, grown, folded, flat⟩ := part_flat begun.flat isUser split
  refine ⟨current, grown, folded, fun id side left right found isProduct => ?_⟩
  obtain ⟨woven, heads, fabric⟩ := flat.fabric
  have live := fabric.live_of_form found (Circuit.isProduct_iff.mpr ⟨left, right, isProduct⟩)
  exact fabric.factors_linear flat.tracked live isProduct

def sharedFactorSum : Circuit where
  nodes := #[.input "a", .input "b", .input "c", .product 0 1, .product 3 3, .product 3 2, .sum 4 5,
    .product 6 2]
  earlier := by decide

theorem sharedFactorSum_several : ∀ id < 8, sharedFactorSum.isGate .arithmetic id = true →
    2 ≤ sharedFactorSum.usesBy (List.range 8) id → id = 3 := by
  decide

theorem sharedFactorSum_known : sharedFactorSum.SharedAtOnce [6, 7] := by
  intro earlier id isPrefix below isGate several
  have inRange : ∀ root ∈ [6, 7], root < sharedFactorSum.size := by decide
  obtain ⟨root, isRoot, reaches⟩ := below
  have idInRange := Nat.lt_of_le_of_lt reaches.le (inRange root (isPrefix.subset isRoot))
  obtain rfl := sharedFactorSum_several id idInRange isGate
    (Nat.le_trans several (Circuit.usesBelow_le inRange id))
  have first : 6 ∈ earlier := by
    rcases List.prefix_cons_iff.mp isPrefix with rfl | ⟨rest, rfl, _⟩
    · contradiction
    · exact List.mem_cons_self
  have users : ∀ user ∈ [4, 5], sharedFactorSum.Below earlier user := by
    intro user member
    refine ⟨6, first, .step (?_ : user ∈ sharedFactorSum.children 6) (.refl user)⟩
    exact member
  have atLeast := Circuit.usesBy_le_usesBelow
    (fun root member => inRange root (isPrefix.subset member)) (by decide : [4, 5].Nodup) users 3
  exact Nat.le_trans (by decide) atLeast

theorem flattening_sharedFactorSum :
    ∃ forms factorizer present counted,
      [6].mapM simplify (fresh .off) sharedFactorSum = some ((forms, factorizer), present) ∧
      factorizer.memory.fanOut.count? present 7 = some counted ∧
      ∃ current grown,
        (schedule present.children factorizer.forms.contains 7).foldlM (Rewriter.step rebuild)
          ⟨factorizer.forms, { factorizer.memory with fanOut := counted }⟩ present =
            some (current, grown) ∧
        ∀ id side left right : Nat, current.forms[id]? = some side →
          grown.node? side = some (.product left right) →
          ∃ factors gates, current.memory.fanOut.factors? grown side = some factors ∧
            grown.gateCount? [side] (.single (.binary .mul)) = some gates ∧
            factors.length ≤ gates + 1 := by
  obtain ⟨forms, factorizer, present, counted, gives, counting, linear⟩ :=
    @flattening_stays_linear .off sharedFactorSum [6] 7 (by decide) sharedFactorSum_known
  obtain ⟨current, grown, folded, few⟩ := linear _ [] (List.append_nil _).symm
  refine ⟨forms, factorizer, present, counted, gives, counting, current, grown, folded, ?_⟩
  intro id side left right found isProduct
  obtain ⟨_, factors, gates, split, _, _, counted, atMost⟩ := few id side left right found isProduct
  exact ⟨factors, gates, split, counted, atMost⟩

end Factorizer

end ArithCircuit
