import ArithCircuit.Proofs.Factor
import ArithCircuit.Proofs.Outputs

set_option autoImplicit false

namespace ArithCircuit

namespace Factorizer

-- A product that is looked into when it is met.
def Loose (circuit : Circuit) (fanOut : FanOut) (id : Nat) : Prop :=
  circuit.isProduct id = true ∧ fanOut.isShared id = false

-- A product made from factors, or the form of an older product.
def Live (start : Circuit) (forms : Forms) (woven : List Nat) (id : Nat) : Prop :=
  id ∈ woven ∨ ∃ node : Nat, start.isProduct node = true ∧ forms[node]? = some id

-- A product that may be looked into has a single use among the products that looking into others
-- brings to light: it is used by one product made from factors, or it is the form of one older node.
-- The products in `woven` have been made from factors, and those in `heads` are handed on as forms.
structure Woven (start circuit : Circuit) (fanOut : FanOut) (forms : Forms) (woven heads : List Nat) :
    Prop where
  once : woven.Nodup
  made : ∀ id ∈ woven, start.size ≤ id ∧ circuit.isProduct id = true
  headed : ∀ head ∈ heads, head < circuit.size
  balanced : ∀ id, Loose circuit fanOut id →
    heads.count id + circuit.usesBy woven id ≤ woven.count id
  below : ∀ user ∈ woven, ∀ child ∈ circuit.children user, circuit.isProduct child = true →
    Live start forms woven child
  formed : ∀ id form : Nat, forms[id]? = some form → id < start.size ∧ form < circuit.size
  linked : ∀ id form left right : Nat, forms[id]? = some form →
    start.node? id = some (.product left right) → form ∉ woven ∧ ∃ first second : Nat,
      forms[left]? = some first ∧ forms[right]? = some second ∧
        circuit.node? form = some (.product first second)
  others : ∀ id form : Nat, forms[id]? = some form → start.isProduct id = false →
    circuit.isProduct form = true →
      Live start forms woven form ∧ (fanOut.isShared form = false → form ∈ heads) ∧
        ∃ left right, start.node? id = some (.sum left right)
  own : ∀ id form : Nat, forms[id]? = some form → Loose circuit fanOut form →
    form = id ∨ start.size ≤ form
  sole : ∀ id other form : Nat, forms[id]? = some form → forms[other]? = some form →
    Loose circuit fanOut form → id = other

theorem Live.mono {start : Circuit} {forms larger : Forms} {woven more : List Nat} {id : Nat}
    (live : Live start forms woven id) (within : forms.Within larger) (subset : woven ⊆ more) :
    Live start larger more id := by
  rcases live with member | ⟨node, product, form⟩
  · exact .inl (subset member)
  · exact .inr ⟨node, product, within node id form⟩

theorem fresh_woven (start : Circuit) (fanOut : FanOut) : Woven start start fanOut ∅ [] [] where
  once := .nil
  made := by simp
  headed := by simp
  balanced := by simp [Circuit.usesBy_nil]
  below := by simp
  formed := by simp
  linked := by simp
  others := by simp
  own := by simp
  sole := by simp

section Kept

variable {start circuit grown : Circuit} {fanOut later : FanOut} {forms : Forms} {woven heads : List Nat}

theorem Woven.inRange (fabric : Woven start circuit fanOut forms woven heads) :
    ∀ id ∈ woven, id < circuit.size :=
  fun id member => Circuit.lt_size_of_isProduct (fabric.made id member).2

theorem Woven.live_of_form (fabric : Woven start circuit fanOut forms woven heads) {id form : Nat}
    (found : forms[id]? = some form) (product : circuit.isProduct form = true) :
    Live start forms woven form := by
  by_cases isProduct : start.isProduct id = true
  · exact .inr ⟨id, isProduct, found⟩
  · exact (fabric.others id form found (by simpa using isProduct) product).1

theorem Woven.live_child (fabric : Woven start circuit fanOut forms woven heads) {id child : Nat}
    (live : Live start forms woven id) (uses : child ∈ circuit.children id)
    (product : circuit.isProduct child = true) : Live start forms woven child := by
  rcases live with member | ⟨node, isProduct, form⟩
  · exact fabric.below id member child uses product
  · obtain ⟨left, right, found⟩ := Circuit.isProduct_iff.mp isProduct
    obtain ⟨_, first, second, firstForm, secondForm, formFound⟩ :=
      fabric.linked node id left right form found
    rw [Circuit.children_of_node? formFound] at uses
    rcases List.mem_pair.mp uses with rfl | rfl
    · exact fabric.live_of_form firstForm product
    · exact fabric.live_of_form secondForm product

theorem Woven.arithmetic_of_form (fabric : Woven start circuit fanOut forms woven heads)
    {id form : Nat} (found : forms[id]? = some form) (product : circuit.isProduct form = true) :
    start.isGate .arithmetic id = true := by
  by_cases isProduct : start.isProduct id = true
  · obtain ⟨left, right, nodeFound⟩ := Circuit.isProduct_iff.mp isProduct
    rw [Circuit.isGate, nodeFound]
    rfl
  · obtain ⟨_, _, left, right, nodeFound⟩ :=
      fabric.others id form found (by simpa using isProduct) product
    rw [Circuit.isGate, nodeFound]
    rfl

theorem Woven.live_of_cut (fabric : Woven start circuit fanOut forms woven heads) {id : Nat}
    {splits operands : List Nat} (live : Live start forms woven id)
    (cut : circuit.Cut .mul splits operands id) :
    (∀ split ∈ splits, Live start forms woven split) ∧
      ∀ operand ∈ operands, circuit.isProduct operand = true → Live start forms woven operand := by
  have inherited : ∀ other left right, circuit.node? other = some (.product left right) →
      (circuit.isProduct other = true → Live start forms woven other) →
      (circuit.isProduct left = true → Live start forms woven left) ∧
        (circuit.isProduct right = true → Live start forms woven right) := by
    intro other left right found holds
    have here := holds (Circuit.isProduct_iff.mpr ⟨left, right, found⟩)
    have edge : ∀ child ∈ [left, right], child ∈ circuit.children other := by
      rw [Circuit.children_of_node? found]
      exact fun child member => member
    exact ⟨fabric.live_child here (edge left (by simp)),
      fabric.live_child here (edge right (by simp))⟩
  obtain ⟨splitsLive, operandsLive⟩ := cut.forall_mem inherited fun _ => live
  refine ⟨fun split member => splitsLive split member ?_, operandsLive⟩
  exact Circuit.isProduct_iff.mpr (cut.split_found split member)

theorem Woven.grow (fabric : Woven start circuit fanOut forms woven heads)
    (extended : circuit.Extends grown) : Woven start grown fanOut forms woven heads := by
  have older : ∀ {id : Nat}, id < circuit.size → Loose grown fanOut id → Loose circuit fanOut id := by
    intro id inRange loose
    exact ⟨Circuit.isProduct_of_extends extended inRange ▸ loose.1, loose.2⟩
  constructor
  case once => exact fabric.once
  case made =>
    intro id member
    refine ⟨(fabric.made id member).1, ?_⟩
    rw [Circuit.isProduct_of_extends extended (fabric.inRange id member)]
    exact (fabric.made id member).2
  case headed =>
    exact fun head member =>
      Nat.lt_of_lt_of_le (fabric.headed head member) (Circuit.size_le_of_extends extended)
  case balanced =>
    intro id loose
    rw [Circuit.usesBy_of_extends extended fabric.inRange]
    by_cases inRange : id < circuit.size
    · exact fabric.balanced id (older inRange loose)
    · have notHead : heads.count id = 0 :=
        List.count_eq_zero.mpr fun member => inRange (fabric.headed id member)
      have unused : circuit.usesBy woven id = 0 := by
        refine List.count_eq_zero.mpr fun member => ?_
        obtain ⟨user, isUser, uses⟩ := List.mem_flatMap.mp member
        exact inRange (Nat.lt_trans (circuit.lt_of_mem_children uses) (fabric.inRange user isUser))
      omega
  case below =>
    intro user member child uses product
    rw [Circuit.children_of_extends extended (fabric.inRange user member)] at uses
    rw [Circuit.isProduct_of_extends extended
      (Nat.lt_trans (circuit.lt_of_mem_children uses) (fabric.inRange user member))] at product
    exact fabric.below user member child uses product
  case formed =>
    intro id form found
    obtain ⟨idInRange, formInRange⟩ := fabric.formed id form found
    exact ⟨idInRange, Nat.lt_of_lt_of_le formInRange (Circuit.size_le_of_extends extended)⟩
  case linked =>
    intro id form left right found isProduct
    obtain ⟨notWoven, first, second, firstForm, secondForm, formFound⟩ :=
      fabric.linked id form left right found isProduct
    exact ⟨notWoven, first, second, firstForm, secondForm, extended _ _ formFound⟩
  case others =>
    intro id form found other product
    rw [Circuit.isProduct_of_extends extended (fabric.formed id form found).2] at product
    exact fabric.others id form found other product
  case own =>
    exact fun id form found loose =>
      fabric.own id form found (older (fabric.formed id form found).2 loose)
  case sole =>
    exact fun id other form found also loose =>
      fabric.sole id other form found also (older (fabric.formed id form found).2 loose)

theorem Woven.share (fabric : Woven start circuit fanOut forms woven heads)
    (more : ∀ id, fanOut.isShared id = true → later.isShared id = true) :
    Woven start circuit later forms woven heads := by
  have unshared : ∀ {id : Nat}, later.isShared id = false → fanOut.isShared id = false := by
    intro id single
    cases before : fanOut.isShared id with
    | false => rfl
    | true => rw [more id before] at single; contradiction
  have looser : ∀ {id : Nat}, Loose circuit later id → Loose circuit fanOut id :=
    fun loose => ⟨loose.1, unshared loose.2⟩
  exact { fabric with
    balanced := fun id loose => fabric.balanced id (looser loose)
    others := fun id form found other product =>
      (fabric.others id form found other product).imp_right
        (And.imp_left fun handed single => handed (unshared single))
    own := fun id form found loose => fabric.own id form found (looser loose)
    sole := fun id other form found also loose => fabric.sole id other form found also (looser loose) }

end Kept

section Step

variable {start circuit grown : Circuit} {fanOut : FanOut} {forms : Forms} {woven heads : List Nat}
  {id form : Nat}

-- Factors are live, and those of them that are products are shared.
structure Stem (start circuit : Circuit) (fanOut : FanOut) (forms : Forms) (woven factors : List Nat) :
    Prop where
  present : ∀ factor ∈ factors, factor < circuit.size
  live : ∀ factor ∈ factors, circuit.isProduct factor = true → Live start forms woven factor
  shared : ∀ factor ∈ factors, circuit.isProduct factor = true → fanOut.isShared factor = true

theorem Woven.stem (fabric : Woven start circuit fanOut forms woven heads) {sides factors : List Nat}
    (formed : ∀ side ∈ sides, circuit.isProduct side = true ∧ ∃ child : Nat, forms[child]? = some side)
    (split : FactorsOf fanOut circuit sides factors) :
    Stem start circuit fanOut forms woven factors := by
  have each : ∀ factor ∈ factors, factor < circuit.size ∧ (circuit.isProduct factor = true →
      Live start forms woven factor ∧ fanOut.isShared factor = true) := by
    intro factor member
    obtain ⟨side, isSide, operands, sideSplit, isOperand⟩ := split factor member
    obtain ⟨product, child, form⟩ := formed side isSide
    obtain ⟨left, right, found⟩ := Circuit.isProduct_iff.mp product
    obtain ⟨splits, others, same, cut, _, whole⟩ := Circuit.chain?_cut fanOut.isShared found
    obtain rfl := Option.some.inj (sideSplit.symm.trans same)
    obtain ⟨smaller, stops⟩ := whole factor isOperand
    refine ⟨Nat.lt_trans smaller (Circuit.lt_size_of_node? found), fun isProduct => ⟨?_, ?_⟩⟩
    · exact (fabric.live_of_cut (fabric.live_of_form form product) cut).2 factor isOperand isProduct
    · obtain ⟨first, second, factorFound⟩ := Circuit.isProduct_iff.mp isProduct
      exact stops.resolve_right fun other => other first second factorFound
  exact ⟨fun factor member => (each factor member).1,
    fun factor member product => ((each factor member).2 product).1,
    fun factor member product => ((each factor member).2 product).2⟩

theorem Stem.not_loose {factors : List Nat} (stem : Stem start circuit fanOut forms woven factors)
    (extended : circuit.Extends grown) {id : Nat} (loose : Loose grown fanOut id) :
    id ∉ factors := by
  intro member
  have product := loose.1
  rw [Circuit.isProduct_of_extends extended (stem.present id member)] at product
  have shared := stem.shared id member product
  rw [loose.2] at shared
  contradiction

theorem Stem.live_of_count {factors results : List Nat}
    (stem : Stem start circuit fanOut forms woven factors)
    (weaves : circuit.Weaves grown factors results) {id : Nat} (product : grown.isProduct id = true)
    (used : 0 < results.count id + grown.usesBy (circuit.gainedProducts grown) id) :
    Live start forms (circuit.gainedProducts grown ++ woven) id := by
  have covered := weaves.covered id product
  by_cases isGained : id ∈ circuit.gainedProducts grown
  · exact .inl (List.mem_append_left woven isGained)
  · rw [List.count_eq_zero.mpr isGained] at covered
    have isFactor : id ∈ factors := List.count_pos_iff.mp (by omega)
    rw [Circuit.isProduct_of_extends weaves.extended (stem.present id isFactor)] at product
    exact (stem.live id isFactor product).mono (Forms.within_refl forms)
      (List.subset_append_right _ _)

theorem Woven.weave (fabric : Woven start circuit fanOut forms woven heads) {factors : List Nat}
    (begun : start.Extends circuit) (stem : Stem start circuit fanOut forms woven factors)
    (weaves : circuit.Weaves grown factors [form]) :
    Woven start grown fanOut forms (circuit.gainedProducts grown ++ woven) (form :: heads) := by
  have extended := weaves.extended
  have before := fabric.grow extended
  have subset : woven ⊆ circuit.gainedProducts grown ++ woven := List.subset_append_right _ _
  constructor
  case once =>
    rw [List.nodup_append]
    refine ⟨circuit.nodup_gainedProducts grown, fabric.once, ?_⟩
    intro gained isGained older isOlder same
    subst same
    have above := (Circuit.mem_gainedProducts.mp isGained).1
    have below := fabric.inRange gained isOlder
    omega
  case made =>
    intro id member
    cases List.mem_append.mp member with
    | inl isGained =>
      obtain ⟨above, product⟩ := Circuit.mem_gainedProducts.mp isGained
      exact ⟨Nat.le_trans (Circuit.size_le_of_extends begun) above, product⟩
    | inr isOlder => exact before.made id isOlder
  case headed => exact List.forall_mem_cons.mpr ⟨weaves.present form (by simp), before.headed⟩
  case balanced =>
    intro id loose
    have covered := weaves.covered id loose.1
    have older := before.balanced id loose
    rw [List.count_eq_zero.mpr (stem.not_loose extended loose)] at covered
    rw [Circuit.usesBy_append, List.count_append, ← List.singleton_append, List.count_append]
    omega
  case below =>
    intro user member child uses product
    cases List.mem_append.mp member with
    | inr isOlder =>
      exact (before.below user isOlder child uses product).mono (Forms.within_refl forms) subset
    | inl isGained =>
      have used : 0 < grown.usesBy (circuit.gainedProducts grown) child :=
        List.count_pos_iff.mpr (List.mem_flatMap.mpr ⟨user, isGained, uses⟩)
      exact stem.live_of_count weaves product (by omega)
  case formed => exact before.formed
  case linked =>
    intro id value left right found isProduct
    obtain ⟨notWoven, rest⟩ := before.linked id value left right found isProduct
    refine ⟨fun member => ?_, rest⟩
    cases List.mem_append.mp member with
    | inl isGained =>
      have above := (Circuit.mem_gainedProducts.mp isGained).1
      have below := (fabric.formed id value found).2
      omega
    | inr isOlder => exact notWoven isOlder
  case others =>
    intro id value found other product
    obtain ⟨live, handed, isSum⟩ := before.others id value found other product
    exact ⟨live.mono (Forms.within_refl forms) subset,
      fun single => List.mem_cons_of_mem form (handed single), isSum⟩
  case own => exact before.own
  case sole => exact before.sole

theorem Woven.insert (fabric : Woven start circuit fanOut forms woven heads)
    (isOpen : forms[id]? = none) (inRange : id < start.size) (present : form < circuit.size)
    (isNew : Loose circuit fanOut form →
      form = id ∨ start.size ≤ form ∧ ∀ other : Nat, forms[other]? ≠ some form)
    (linked : ∀ left right, start.node? id = some (.product left right) →
      form ∉ woven ∧ ∃ first second : Nat, forms[left]? = some first ∧ forms[right]? = some second ∧
        circuit.node? form = some (.product first second))
    (other : start.isProduct id = false → circuit.isProduct form = true →
      Live start forms woven form ∧ (fanOut.isShared form = false → form ∈ heads) ∧
        ∃ left right, start.node? id = some (.sum left right)) :
    Woven start circuit fanOut (forms.insert id form) woven heads := by
  have within := Forms.within_insert isOpen form
  have distinct : ∀ known : Nat, forms[known]? = some form → Loose circuit fanOut form → False := by
    intro known found loose
    rcases isNew loose with rfl | ⟨_, absent⟩
    · rcases fabric.own known form found loose with rfl | above
      · rw [isOpen] at found
        contradiction
      · omega
    · exact absent known found
  refine { fabric with below := ?_, formed := ?_, linked := ?_, others := ?_, own := ?_, sole := ?_ }
  · exact fun user member child uses product =>
      (fabric.below user member child uses product).mono within (List.Subset.refl woven)
  · intro node value found
    rcases found_in_insert found with ⟨rfl, rfl⟩ | older
    · exact ⟨inRange, present⟩
    · exact fabric.formed node value older
  · intro node value left right found isProduct
    rcases found_in_insert found with ⟨rfl, rfl⟩ | older
    · obtain ⟨notWoven, first, second, leftForm, rightForm, formFound⟩ := linked left right isProduct
      exact ⟨notWoven, first, second, within _ _ leftForm, within _ _ rightForm, formFound⟩
    · obtain ⟨notWoven, first, second, leftForm, rightForm, formFound⟩ :=
        fabric.linked node value left right older isProduct
      exact ⟨notWoven, first, second, within _ _ leftForm, within _ _ rightForm, formFound⟩
  · intro node value found single product
    have still : Live start forms woven value → Live start (forms.insert id form) woven value :=
      fun live => live.mono within (List.Subset.refl woven)
    rcases found_in_insert found with ⟨rfl, rfl⟩ | older
    · exact (other single product).imp_left still
    · exact (fabric.others node value older single product).imp_left still
  · intro node value found loose
    rcases found_in_insert found with ⟨rfl, rfl⟩ | older
    · exact (isNew loose).imp_right fun isNew => isNew.1
    · exact fabric.own node value older loose
  · intro node also value found alsoFound loose
    rcases found_in_insert found with ⟨rfl, rfl⟩ | older
    · rcases found_in_insert alsoFound with ⟨rfl, _⟩ | alsoOlder
      · rfl
      · exact (distinct also alsoOlder loose).elim
    · rcases found_in_insert alsoFound with ⟨rfl, rfl⟩ | alsoOlder
      · exact (distinct node older loose).elim
      · exact fabric.sole node also value older alsoOlder loose

theorem Woven.relink (fabric : Woven start circuit fanOut forms woven heads)
    (begun : start.Extends circuit) (isOpen : forms[id]? = none) (inRange : id < start.size)
    (relinks : circuit.Relinks forms id form grown) :
    Woven start grown fanOut (forms.insert id form) woven heads := by
  have startLess := Circuit.size_le_of_extends begun
  have single : ∀ {node new : Node}, circuit.node? id = some node →
      node.mapChildren? (fun child => forms[child]?) = some new → start.isProduct id = false →
      new.operands? .mul = none := by
    intro node new found mapped other
    rw [← Circuit.isProduct_of_extends begun inRange, Circuit.isProduct, found, Option.bind_some,
      Option.isSome_eq_false_iff, Option.isNone_iff_eq_none] at other
    exact Node.operands?_mapChildren? mapped other
  cases relinks with
  | @unchanged node found mapped =>
    refine fabric.insert isOpen inRange (Nat.lt_of_lt_of_le inRange startLess) (fun _ => .inl rfl) ?_ ?_
    · intro left right isProduct
      obtain rfl := Option.some.inj (found.symm.trans (begun _ _ isProduct))
      obtain ⟨first, second, leftForm, rightForm, same⟩ := Node.mapChildren?_binary mapped
      refine ⟨fun member => ?_, first, second, leftForm, rightForm, found.trans (congrArg some same)⟩
      have above := (fabric.made id member).1
      omega
    · intro other product
      have none := single found mapped other
      rw [Circuit.isProduct, found, Option.bind_some, none] at product
      contradiction
  | @changed node new found mapped _ bound =>
    have extended := circuit.extends_push new bound
    have made : (circuit.push new bound).node? circuit.size = some new := by
      rw [Circuit.node?_push, if_pos rfl]
    refine (fabric.grow extended).insert isOpen inRange (Circuit.lt_size_of_node? made) ?_ ?_ ?_
    · refine fun _ => .inr ⟨startLess, fun other found => ?_⟩
      exact Nat.lt_irrefl _ (fabric.formed other _ found).2
    · intro left right isProduct
      obtain rfl := Option.some.inj (found.symm.trans (begun _ _ isProduct))
      obtain ⟨first, second, leftForm, rightForm, rfl⟩ := Node.mapChildren?_binary mapped
      refine ⟨fun member => ?_, first, second, leftForm, rightForm, made⟩
      exact Nat.lt_irrefl _ (fabric.inRange _ member)
    · intro other product
      have none := single found mapped other
      rw [Circuit.isProduct, made, Option.bind_some, none] at product
      contradiction

theorem Woven.refactor (fabric : Woven start circuit fanOut forms woven heads)
    (begun : start.Extends circuit) (isOpen : forms[id]? = none) (inRange : id < start.size)
    (refactored : Refactored forms fanOut circuit grown id form) :
    Woven start grown fanOut (forms.insert id form) (circuit.gainedProducts grown ++ woven)
      (form :: heads) := by
  obtain ⟨left, right, isSum⟩ := refactored.sum
  obtain ⟨sides, factors, formed, split, weaves⟩ := refactored.woven
  have stem := fabric.stem formed split
  refine (fabric.weave begun stem weaves).insert isOpen inRange (weaves.present form (by simp)) ?_ ?_ ?_
  · intro loose
    have isGained : form ∈ circuit.gainedProducts grown := by
      have covered := weaves.covered form loose.1
      rw [List.count_eq_zero.mpr (stem.not_loose weaves.extended loose), List.count_singleton_self]
        at covered
      exact List.count_pos_iff.mp (by omega)
    have above := (Circuit.mem_gainedProducts.mp isGained).1
    refine .inr ⟨Nat.le_trans (Circuit.size_le_of_extends begun) above, fun other found => ?_⟩
    have below := (fabric.formed other form found).2
    omega
  · intro first second isProduct
    cases isSum.symm.trans (begun _ _ isProduct)
  · intro _ product
    rw [Circuit.node?_of_extends begun inRange] at isSum
    refine ⟨stem.live_of_count weaves product ?_, fun _ => List.mem_cons_self, left, right, isSum⟩
    rw [List.count_singleton_self]
    omega

theorem Woven.rebuild (fabric : Woven start circuit fanOut forms woven heads)
    (begun : start.Extends circuit) (isOpen : forms[id]? = none) (inRange : id < start.size)
    (rebuilt : Rebuilt forms fanOut circuit grown id form) :
    ∃ woven heads, Woven start grown fanOut (forms.insert id form) woven heads := by
  rcases rebuilt with relinks | refactored
  · exact ⟨_, _, fabric.relink begun isOpen inRange relinks⟩
  · exact ⟨_, _, fabric.refactor begun isOpen inRange refactored⟩

end Step

end Factorizer

end ArithCircuit
