import ArithCircuit.Proofs.Trades
import ArithCircuit.Proofs.Uses

set_option autoImplicit false

namespace ArithCircuit

namespace Balancer

theorem dependencies_of_product {circuit : Circuit} {fanOut : FanOut} {id left right : Nat}
    {factors : List Nat} (found : circuit.node? id = some (.product left right))
    (split : fanOut.factors? circuit id = some factors) :
    dependencies circuit fanOut id = factors := by
  simp [dependencies, found, Node.operands?, split]

theorem dependencies_of_other {circuit : Circuit} {fanOut : FanOut} {id : Nat} {node : Node}
    (found : circuit.node? id = some node) (other : node.operands? .mul = none) :
    dependencies circuit fanOut id = circuit.children id := by
  simp [dependencies, found, other]

theorem dependencies_earlier (circuit : Circuit) (fanOut : FanOut) :
    ∀ id, ∀ dependency ∈ dependencies circuit fanOut id, dependency < id := by
  intro id dependency member
  cases found : circuit.node? id with
  | none => simp [dependencies, found, Circuit.children] at member
  | some node =>
    cases split : node.operands? .mul with
    | none =>
      rw [dependencies_of_other found split] at member
      exact circuit.lt_of_mem_children member
    | some pair =>
      obtain rfl := Node.operands?_eq_some.mp split
      obtain ⟨factors, factored, _, _, smaller⟩ := @FanOut.factors?_of_product fanOut _ _ _ _ found
      rw [dependencies_of_product found factored] at member
      exact smaller dependency member

-- A product is worked off together with the unshared products below it, which are never called for
-- themselves; so all gates that are replaced during a call are different ones.
structure Gathers (circuit : Circuit) (fanOut : FanOut) (id : Nat) (splits : List Nat) : Prop where
  products : ∀ split ∈ splits, ∃ left right, circuit.node? split = some (.product left right)
  unshared : ∀ split ∈ splits, fanOut.isShared split = false
  users : ∀ split ∈ splits, ∃ user left right, circuit.Reaches id user ∧
    circuit.node? user = some (.product left right) ∧ split ∈ circuit.children user
  balanced : (splits ++ dependencies circuit fanOut id).Perm ((id :: splits).flatMap circuit.children)

theorem gathers_of_product {circuit : Circuit} {fanOut : FanOut} {id left right : Nat}
    {factors : List Nat} (found : circuit.node? id = some (.product left right))
    (split : fanOut.factors? circuit id = some factors) :
    ∃ splits, factors.length = (id :: splits).length + 1 ∧ Gathers circuit fanOut id splits := by
  obtain ⟨splits, operands, same, cut, unshared, _⟩ := Circuit.chain?_cut fanOut.isShared found
  obtain rfl := Option.some.inj (split.symm.trans same)
  have balanced := cut.perm_children.cons_inv
  rw [← dependencies_of_product found split] at balanced
  refine ⟨splits, cut.length_eq,
    fun other member => cut.split_found other (List.mem_cons_of_mem id member),
    fun other member => (unshared other member).2, ?_, balanced⟩
  intro other member
  obtain ⟨user, isSplit, uses⟩ :=
    List.mem_flatMap.mp (balanced.mem_iff.mp (List.mem_append_left _ member))
  obtain ⟨first, second, isProduct⟩ := cut.split_found user isSplit
  exact ⟨user, first, second, cut.reaches_split user isSplit, isProduct, uses⟩

theorem gathers_of_other {circuit : Circuit} {fanOut : FanOut} {id : Nat} {node : Node}
    (found : circuit.node? id = some node) (other : node.operands? .mul = none) :
    Gathers circuit fanOut id [] where
  products := by simp
  unshared := by simp
  users := by simp
  balanced := by rw [dependencies_of_other found other, List.flatMap_singleton]; rfl

-- A node that is called for below the root: the root, an operand at which splitting stops, or an
-- operand of a gate that is not split.
structure Called (circuit : Circuit) (fanOut : FanOut) (root id : Nat) : Prop where
  reached : circuit.Reaches root id
  reason : id = root ∨ circuit.Whole .mul fanOut.isShared id ∨
    ∃ user, circuit.Reaches root user ∧ id ∈ circuit.children user ∧
      ∀ left right, circuit.node? user ≠ some (.product left right)

theorem called_root (circuit : Circuit) (fanOut : FanOut) (root : Nat) :
    Called circuit fanOut root root :=
  ⟨.refl root, .inl rfl⟩

theorem Called.dependency {circuit : Circuit} {fanOut : FanOut} {root id dependency : Nat}
    (called : Called circuit fanOut root id) (member : dependency ∈ dependencies circuit fanOut id) :
    Called circuit fanOut root dependency := by
  cases found : circuit.node? id with
  | none => simp [dependencies, found, Circuit.children] at member
  | some node =>
    cases split : node.operands? .mul with
    | none =>
      rw [dependencies_of_other found split] at member
      refine ⟨called.reached.child member, .inr (.inr ⟨id, called.reached, member, ?_⟩)⟩
      intro left right isProduct
      obtain rfl := Option.some.inj (found.symm.trans isProduct)
      contradiction
    | some pair =>
      obtain rfl := Node.operands?_eq_some.mp split
      obtain ⟨splits, factors, same, cut, _, whole⟩ := Circuit.chain?_cut fanOut.isShared found
      rw [dependencies_of_product found same] at member
      obtain ⟨user, isSplit, uses⟩ := List.mem_flatMap.mp
        (cut.perm_children.cons_inv.mem_iff.mp (List.mem_append_right splits member))
      have userReached := called.reached.trans (cut.reaches_split user isSplit)
      exact ⟨userReached.child uses, .inr (.inl (whole dependency member).2)⟩

def Keeps (circuit : Circuit) (forms : Forms) (id : Nat) : Prop :=
  (∀ left right, circuit.node? id ≠ some (.product left right)) →
    ∀ child ∈ circuit.children id, forms[child]? = some child

theorem Keeps.of_within {circuit : Circuit} {forms larger : Forms} {id : Nat}
    (keeps : Keeps circuit forms id) (within : forms.Within larger) : Keeps circuit larger id :=
  fun unsplit child member => within child child (keeps unsplit child member)

-- What a call has worked off: `tops` are the nodes replaced so far, `splits` the products below them
-- that were split, and `known` the forms from before the call.
structure Ledger (start : Circuit) (counted : FanOut) (root : Nat) (known forms : Forms)
    (tops splits : List Nat) : Prop where
  once : tops.Nodup
  formed : ∀ id form, forms[id]? = some form →
    known[id]? = some form ∨ Called start counted root id ∧ (form = id ∨ start.size ≤ form)
  replaced : ∀ top ∈ tops, Called start counted root top ∧ known[top]? = none ∧
    ∃ form, forms[top]? = some form ∧ form ≠ top
  kept : ∀ id, known[id]? = none → forms[id]? = some id → Keeps start forms id
  changed : ∀ id form, known[id]? = none → forms[id]? = some form → form ≠ id →
    start.isGate .all id = true
  products : ∀ split ∈ splits, ∃ left right, start.node? split = some (.product left right)
  unshared : ∀ split ∈ splits, counted.isShared split = false
  users : ∀ split ∈ splits, ∃ user left right, start.Reaches root user ∧
    start.node? user = some (.product left right) ∧ split ∈ start.children user
  used : ∀ id, splits.count id ≤ start.usesBy (tops ++ splits) id

structure Accounts (start : Circuit) (counted : FanOut) (root : Nat) (known : Forms)
    (circuit : Circuit) (forms : Forms) (tops splits : List Nat) : Prop extends
    Ledger start counted root known forms tops splits where
  trades : start.Trades circuit forms (tops ++ splits)

theorem start_accounts (start : Circuit) (counted : FanOut) (root : Nat) (known : Forms) :
    Accounts start counted root known start known [] [] where
  once := .nil
  formed := fun _ _ found => .inl found
  replaced := by simp
  kept := by
    intro id absent found
    rw [absent] at found
    contradiction
  changed := by
    intro id form absent found
    rw [absent] at found
    contradiction
  products := by simp
  unshared := by simp
  users := by simp
  used := by simp
  trades := .unchanged _ _ _

section Step

variable {start circuit grown : Circuit} {counted : FanOut} {root id form : Nat} {known forms : Forms}
  {tops splits gathered : List Nat}

theorem Accounts.formed_insert (accounts : Accounts start counted root known circuit forms tops splits)
    (called : Called start counted root id) (isNew : form = id ∨ start.size ≤ form) :
    ∀ other value, (forms.insert id form)[other]? = some value → known[other]? = some value ∨
      Called start counted root other ∧ (value = other ∨ start.size ≤ value) := by
  intro other value found
  rcases found_in_insert found with ⟨rfl, rfl⟩ | older
  · exact .inr ⟨called, isNew⟩
  · exact accounts.formed other value older

theorem Accounts.keep (accounts : Accounts start counted root known circuit forms tops splits)
    (isOpen : forms[id]? = none) (called : Called start counted root id)
    (keeps : Keeps start forms id) :
    Accounts start counted root known circuit (forms.insert id id) tops splits :=
  { accounts with
    formed := accounts.formed_insert called (.inl rfl)
    replaced := by
      intro top member
      obtain ⟨topCalled, absent, value, found, moved⟩ := accounts.replaced top member
      exact ⟨topCalled, absent, value, insert_of_absent isOpen found, moved⟩
    kept := by
      intro other absent found
      have within := Forms.within_insert isOpen id
      rcases found_in_insert found with ⟨rfl, _⟩ | older
      · exact keeps.of_within within
      · exact (accounts.kept other absent older).of_within within
    changed := by
      intro other value absent found moved
      rcases found_in_insert found with ⟨rfl, rfl⟩ | older
      · exact absurd rfl moved
      · exact accounts.changed other value absent older moved
    trades := accounts.trades.of_within (Forms.within_insert isOpen id) }

theorem Accounts.replace (accounts : Accounts start counted root known circuit forms tops splits)
    (extended : start.Extends circuit) (further : circuit.Extends grown)
    (isOpen : forms[id]? = none) (within : known.Within forms) (called : Called start counted root id)
    (inRange : id < start.size) (isNew : start.size ≤ form) (isGate : start.isGate .all id = true)
    (gathers : Gathers start counted id gathered) (trades : circuit.Trades grown forms (id :: gathered)) :
    Accounts start counted root known grown (forms.insert id form) (id :: tops)
      (gathered ++ splits) where
  once := by
    refine List.nodup_cons.mpr ⟨fun member => ?_, accounts.once⟩
    obtain ⟨_, _, value, found, _⟩ := accounts.replaced id member
    rw [isOpen] at found
    contradiction
  formed := accounts.formed_insert called (.inr isNew)
  replaced := by
    intro top member
    rcases List.mem_cons.mp member with rfl | older
    · refine ⟨called, ?_, form, Std.HashMap.getElem?_insert_self, by omega⟩
      cases before : known[top]? with
      | none => rfl
      | some value =>
        rw [within top value before] at isOpen
        contradiction
    · obtain ⟨topCalled, absent, value, found, moved⟩ := accounts.replaced top older
      exact ⟨topCalled, absent, value, insert_of_absent isOpen found, moved⟩
  kept := by
    intro other absent found
    rcases found_in_insert found with ⟨rfl, rfl⟩ | older
    · omega
    · exact (accounts.kept other absent older).of_within (Forms.within_insert isOpen form)
  changed := by
    intro other value absent found moved
    rcases found_in_insert found with ⟨rfl, rfl⟩ | older
    · exact isGate
    · exact accounts.changed other value absent older moved
  products := fun split member =>
    (List.mem_append.mp member).elim (gathers.products split) (accounts.products split)
  unshared := fun split member =>
    (List.mem_append.mp member).elim (gathers.unshared split) (accounts.unshared split)
  users := by
    intro split member
    cases List.mem_append.mp member with
    | inl fresh =>
      obtain ⟨user, left, right, reaches, found, uses⟩ := gathers.users split fresh
      exact ⟨user, left, right, called.reached.trans reaches, found, uses⟩
    | inr older => exact accounts.users split older
  used := by
    intro other
    have fresh : gathered.count other ≤ start.usesBy (id :: gathered) other := by
      have edges := gathers.balanced.count_eq other
      rw [List.count_append] at edges
      exact Nat.le_trans (Nat.le_add_right _ _) (Nat.le_of_eq edges)
    have before := accounts.used other
    simp only [List.cons_append, List.count_append, Circuit.usesBy_cons, Circuit.usesBy_append]
      at fresh before ⊢
    omega
  trades := by
    have within := Forms.within_insert isOpen form
    have gatesInRange : ∀ gate ∈ id :: gathered, gate < start.size := by
      intro gate member
      rcases List.mem_cons.mp member with rfl | below
      · exact inRange
      · obtain ⟨left, right, found⟩ := gathers.products gate below
        exact Circuit.lt_size_of_node? found
    have total := accounts.trades.trans extended further within gatesInRange (trades.of_within within)
    refine total.of_perm (List.perm_iff_count.mpr fun other => ?_)
    simp only [List.cons_append, List.count_append, List.count_cons]
    omega

end Step

section Finished

variable {start circuit : Circuit} {counted : FanOut} {root : Nat} {known forms : Forms}
  {tops splits users : List Nat}

theorem Accounts.gates_reached (accounts : Accounts start counted root known circuit forms tops splits) :
    ∀ gate ∈ tops ++ splits, start.Reaches root gate := by
  intro gate member
  cases List.mem_append.mp member with
  | inl isTop => exact (accounts.replaced gate isTop).1.reached
  | inr isSplit =>
    obtain ⟨user, _, _, reaches, _, uses⟩ := accounts.users gate isSplit
    exact reaches.child uses

theorem Accounts.not_called (accounts : Accounts start counted root known circuit forms tops splits)
    (counts : FanOut.Counts start counted users) (rootCounted : root ∈ users) {split : Nat}
    (member : split ∈ splits) : ¬ Called start counted root split := by
  intro called
  obtain ⟨left, right, isProduct⟩ := accounts.products split member
  obtain ⟨user, first, second, userReached, userFound, uses⟩ := accounts.users split member
  rcases called.reason with rfl | whole | other
  · have below := start.lt_of_mem_children uses
    have above := userReached.le
    omega
  · cases whole with
    | inl shared =>
      rw [accounts.unshared split member] at shared
      contradiction
    | inr single => exact single left right isProduct
  · obtain ⟨other, otherReached, otherUses, unsplit⟩ := other
    have sole := counts.uses_le_one (accounts.unshared split member)
    have same := Circuit.eq_of_sole_use sole (counts.mem_of_reaches rootCounted userReached)
      (counts.mem_of_reaches rootCounted otherReached) uses otherUses
    exact unsplit first second (same ▸ userFound)

theorem Accounts.nodup (accounts : Accounts start counted root known circuit forms tops splits)
    (counts : FanOut.Counts start counted users) (rootCounted : root ∈ users) :
    (tops ++ splits).Nodup := by
  apply Circuit.nodup_of_sole_use accounts.once
  · intro split isSplit isTop
    exact accounts.not_called counts rootCounted isSplit (accounts.replaced split isTop).1
  · intro split isSplit
    obtain ⟨left, right, found⟩ := accounts.products split isSplit
    exact Circuit.lt_size_of_node? found
  · exact accounts.used
  · intro split isSplit gates once chosen
    have counted : gates ⊆ users := fun gate member =>
      counts.mem_of_reaches rootCounted (accounts.gates_reached gate (chosen member))
    exact Nat.le_trans (Circuit.usesBy_le_of_subset once counted split)
      (counts.uses_le_one (accounts.unshared split isSplit))

end Finished

end Balancer

end ArithCircuit
