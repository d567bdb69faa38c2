import PhyNspire.Ir.Sorting

/-!
What every builder makes. A builder either publishes the expression that its operands
call for, or stops with the pools as they were.
-/

namespace PhyNspire.Ir.Construction
open Lib Lib.Stateful Lib.Trees Lib.Decimal Exact.Decimals
open Expressions Context Symbols Nodes Order Builders Layout SymbolTable NodeTable Ordering Sorting Sums

variable {s t u : IrContext} {graph graph' : Graph} {entry : Entry Label} {proto : Node} {label : Label} {expr : Expr}
  {ref : Nat}

/-- The ref stands for the expression in a context that has only grown. -/
def Makes (s : IrContext) (graph : Graph) (expr : Expr) (ref : Nat) (t : IrContext) : Prop :=
  ∃ graph', Published s t graph graph' ∧ graph'.names = graph.names ∧ treeAt graph'.entries ref = some expr

theorem Grows.live (grows : Grows graph graph') (live : Live graph.entries ref) : Live graph'.entries ref := by
  obtain ⟨added, grown⟩ := grows.entries
  rw [← grown]
  exact live.append

theorem Grows.treeAt (grows : Grows graph graph') (live : Live graph.entries ref) :
    Trees.treeAt graph'.entries ref = Trees.treeAt graph.entries ref := by
  obtain ⟨added, grown⟩ := grows.entries
  rw [← grown]
  exact treeAt_append live

theorem Grows.treeAt_some (grows : Grows graph graph') (held : Trees.treeAt graph.entries ref = some expr) :
    Trees.treeAt graph'.entries ref = some expr := (Grows.treeAt grows (live_of_treeAt held)).trans held

variable {refs : List Nat}

theorem Grows.trees (grows : Grows graph graph') (live : ∀ ref ∈ refs, Live graph.entries ref) :
    refs.filterMap (Trees.treeAt graph'.entries) = refs.filterMap (Trees.treeAt graph.entries) := by
  obtain ⟨added, grown⟩ := grows.entries
  rw [← grown]
  exact filterMap_congr_treeAt live

theorem makes_of_held (sound : Sound s.pools graph) (held : treeAt graph.entries ref = some expr) (kept : Kept s t) :
    Makes s graph expr ref t := ⟨graph, .of_kept sound kept, rfl, held⟩

theorem Makes.of_kept (made : Makes t graph expr ref u) (kept : Kept s t) : Makes s graph expr ref u := by
  obtain ⟨graph', published, names, held⟩ := made
  exact ⟨graph', ⟨published.grows, published.sound, published.limits.trans kept.limits⟩, names, held⟩

theorem internNode_makes (sound : Sound s.pools graph) (proposes : Proposes graph entry proto) :
    wp (internNode proto (extraOf entry)) (Makes s graph (exprOf graph entry)) (fun _ t => Kept s t) s := by
  refine wp_good (internNode_spec sound proposes) fun ref t held => ?_
  obtain ⟨graph', published, names, stored⟩ := held
  refine ⟨graph', published, names, ?_⟩
  rw [treeAt_of_entryAt published.sound.wellFormed.backward stored, Grows.trees published.grows proposes.live]
  rfl

theorem proposes_atom (heads : Heads graph.names label [] proto) (shaped : Shaped label [])
    (hash : proto.hash = hashNode label []) (depth : proto.depth = 1) : Proposes graph ⟨label, []⟩ proto where
  toHeads := heads
  live := fun _ inside => absurd inside List.not_mem_nil
  shaped := shaped
  hash := hash.trans (hash_node label []).symm
  depth := depth

theorem inline_intCast (value : Int64) : Inline (value.toInt : ℚ) := by
  have low := value.le_toInt
  have high := value.toInt_lt
  refine ⟨⟨?_, ?_⟩, ⟨?_, ?_⟩⟩
  all_goals simp only [Rat.num_intCast, Rat.den_intCast]
  all_goals omega

theorem ofInt_toInt (value : Int64) : Int64.ofInt value.toInt = value := Int64.ofInt_toInt value

theorem makeInteger_makes (sound : Sound s.pools graph) (value : Int64) :
    wp (makeInteger value) (Makes s graph (.node (.exact value.toInt) [])) (fun _ t => Kept s t) s := by
  have inline := inline_intCast value
  have integral : ((value.toInt : ℚ)).den = 1 := Rat.den_intCast _
  have extra : Extra.none = extraOf ⟨.exact value.toInt, []⟩ := by
    simp [extraOf, Extra.none, ratOf, promotedOf, inline, integral]
  have proposes : Proposes graph ⟨.exact value.toInt, []⟩
      ⟨.integer, 0, 1, 0, hashBytes (hashKind .integer) (bytesI64 value), 0, 0, .integer value⟩ := by
    refine proposes_atom ?_ rfl ?_ rfl
    · refine
        { kind := ?_
          aux := ?_
          childCount := rfl
          head := rfl
          payload := ?_ }
      · rw [kind_exact, if_pos integral]
      · rw [nodeAux_exact, if_pos inline]
      · intro _ _
        rw [Rat.num_intCast, ofInt_toInt]
    · change _ = hashExact _
      rw [hashExact, if_pos inline, if_pos integral, Rat.num_intCast, ofInt_toInt]
  unfold makeInteger
  rw [extra]
  exact internNode_makes sound proposes

theorem makeRational_makes (sound : Sound s.pools graph) {q : ℚ} (inline : Inline q) (fraction : q.den ≠ 1) :
    wp (makeRational ⟨Int64.ofInt q.num, Int64.ofInt q.den⟩) (Makes s graph (.node (.exact q) [])) (fun _ t => Kept s t) s := by
  have extra : Extra.mk [] (some ⟨Int64.ofInt q.num, Int64.ofInt q.den⟩) none = extraOf ⟨.exact q, []⟩ := by
    simp [extraOf, ratOf, promotedOf, inline, fraction]
  unfold makeRational
  rw [extra]
  refine internNode_makes sound (proposes_atom ?_ rfl ?_ rfl)
  · refine
      { kind := ?_
        aux := ?_
        childCount := rfl
        head := rfl
        payload := fun _ integral => absurd integral fraction }
    · rw [kind_exact, if_neg fraction]
    · rw [nodeAux_exact, if_pos inline]
  · change _ = hashExact q
    rw [hashExact, if_pos inline, if_neg fraction]

theorem makePromoted_makes (sound : Sound s.pools graph) {q : ℚ} (big : ¬Inline q) :
    wp (makePromoted (Label.exact q).kind ⟨integerText q.num, if q.den = 1 then [] else integerText q.den⟩)
      (Makes s graph (.node (.exact q) [])) (fun _ t => Kept s t) s := by
  have extra : Extra.mk [] none (some ⟨integerText q.num, if q.den = 1 then [] else integerText q.den⟩) =
      extraOf ⟨.exact q, []⟩ := by
    simp [extraOf, ratOf, promotedOf, big]
  unfold makePromoted
  rw [extra]
  refine internNode_makes sound (proposes_atom ?_ rfl ?_ rfl)
  · refine
      { kind := rfl
        aux := ?_
        childCount := rfl
        head := rfl
        payload := fun inline => absurd inline big }
    rw [nodeAux_exact, if_neg big]
  · change hashPromoted _ _ = hashExact q
    rw [hashExact, if_neg big, hashPromoted, kind_exact]
    by_cases integral : q.den = 1
    · simp [integral]
    · simp [integral]

theorem gcdU64_eq {turns : Nat} (a : Nat) {b : Nat} (enough : b < turns) : gcdU64 turns a b = Nat.gcd a b := by
  induction turns generalizing a b with
  | zero => omega
  | succ turns ih =>
    unfold gcdU64
    split
    · rename_i more
      have less := Nat.mod_lt a (Nat.pos_of_ne_zero more)
      rw [ih b (by omega), Nat.gcd_comm a b, Nat.gcd_rec b a, Nat.gcd_comm]
    · rename_i last
      rw [not_not.mp last, Nat.gcd_zero_right]

theorem quotient_parts {n d : Int} (nonzero : d ≠ 0) :
    ((n : ℚ) / d).num = n.sign * d.sign * ((n.natAbs / Nat.gcd n.natAbs d.natAbs : Nat) : Int) ∧
      ((n : ℚ) / d).den = d.natAbs / Nat.gcd n.natAbs d.natAbs := by
  have divides : Nat.gcd n.natAbs d.natAbs ∣ n.natAbs := Nat.gcd_dvd_left _ _
  rw [← Rat.divInt_eq_div, Rat.num_divInt, Rat.den_divInt, if_neg nonzero, Int.gcd_def, Nat.gcd_comm d.natAbs]
  refine ⟨?_, rfl⟩
  have split : d.sign * n = n.sign * d.sign * n.natAbs := by
    conv_lhs => rw [← Int.sign_mul_natAbs n]
    ring
  rw [split, Int.mul_ediv_assoc _ (Int.natCast_dvd_natCast.mpr divides), Int.natCast_div]

theorem irRational_makes (sound : Sound s.pools graph) (numerator denominator : Int64) :
    wp (irRational numerator denominator) (fun ref t => denominator.toInt ≠ 0 ∧
      Makes s graph (.node (.exact (numerator.toInt / denominator.toInt)) []) ref t) (fun _ t => Kept s t) s := by
  have zero_iff (value : Int64) : value = 0 ↔ value.toInt = 0 := by
    rw [← Int64.toInt_inj]
    rfl
  have negative_iff (value : Int64) : value < 0 ↔ value.toInt < 0 := Int64.lt_iff_toInt_lt
  obtain ⟨magnitude, word⟩ := Exact.Arithmetic.magnitudeI64_spec numerator
  obtain ⟨magnitude', word'⟩ := Exact.Arithmetic.magnitudeI64_spec denominator
  unfold irRational
  apply wp_ite
  · intro _
    exact wp_refuse _ (fun _ kept => kept)
  intro nonzero
  rw [zero_iff] at nonzero
  apply wp_ite
  · intro zero
    rw [zero_iff] at zero
    have made := makeInteger_makes sound 0
    rw [show ((0 : Int64).toInt : ℚ) = numerator.toInt / denominator.toInt by rw [zero]; simp] at made
    exact wp_good made fun _ _ held => ⟨nonzero, held⟩
  intro nonzero'
  rw [zero_iff] at nonzero'
  obtain ⟨num, den⟩ := quotient_parts (n := numerator.toInt) nonzero
  dsimp only
  rw [gcdU64_eq _ (Nat.lt_succ_self _), magnitude, magnitude']
  generalize numerator.toInt.natAbs / Nat.gcd numerator.toInt.natAbs denominator.toInt.natAbs = n at *
  generalize denominator.toInt.natAbs / Nat.gcd numerator.toInt.natAbs denominator.toInt.natAbs = d at *
  generalize (numerator.toInt : ℚ) / denominator.toInt = q at *
  have signed : q.num = if (decide (numerator < 0) != decide (denominator < 0)) = true then -(n : Int) else n := by
    rw [num]
    rcases lt_or_gt_of_ne nonzero with low | high <;> rcases lt_or_gt_of_ne nonzero' with low' | high'
    · simp [negative_iff, low, low', Int.sign_eq_neg_one_of_neg]
    · simp [negative_iff, low, not_lt.mpr high'.le, Int.sign_eq_neg_one_of_neg, Int.sign_eq_one_of_pos high']
    · simp [negative_iff, not_lt.mpr high.le, low', Int.sign_eq_neg_one_of_neg, Int.sign_eq_one_of_pos high]
    · simp [negative_iff, not_lt.mpr high.le, not_lt.mpr high'.le, Int.sign_eq_one_of_pos high, Int.sign_eq_one_of_pos high']
  generalize (decide (numerator < 0) != decide (denominator < 0)) = negative at *
  apply wp_ite
  · intro _
    exact wp_refuse _ (fun _ kept => kept)
  intro inside
  have inline : Inline q := by
    refine ⟨⟨?_, ?_⟩, ⟨?_, ?_⟩⟩
    all_goals cases negative <;> simp only [Bool.false_eq_true, if_true, if_false] at inside signed <;> omega
  have numeral : (if negative = true then Int64.ofInt (-(n : Int)) else Int64.ofInt n) = Int64.ofInt q.num := by
    rw [signed]
    split <;> rfl
  rw [numeral, ← den]
  apply wp_ite
  · intro integral
    have made := makeInteger_makes sound (Int64.ofInt q.num)
    rw [toInt_ofInt_of_fits inline.1, Rat.coe_int_num_of_den_eq_one integral] at made
    exact wp_good made fun _ _ held => ⟨nonzero, held⟩
  · intro fraction
    exact wp_good (makeRational_makes sound inline fraction) fun _ _ held => ⟨nonzero, held⟩

/-- Finite reals, zero with its plus sign. -/
def positiveZero (bits : UInt64) : UInt64 := if bits = 0x8000000000000000 then 0 else bits

theorem canonicalReal_positiveZero {bits : UInt64} (finite : (bits >>> 52) &&& 0x7ff ≠ 0x7ff) :
    CanonicalReal (positiveZero bits) := by
  unfold positiveZero
  split
  · exact ⟨by decide, by decide⟩
  · rename_i other
    exact ⟨finite, other⟩

theorem irReal_makes (sound : Sound s.pools graph) (bits : UInt64) :
    wp (irReal bits) (fun ref t => (bits >>> 52) &&& 0x7ff ≠ 0x7ff ∧
      Makes s graph (.node (.real (positiveZero bits)) []) ref t) (fun _ t => Kept s t) s := by
  unfold irReal
  apply wp_ite
  · intro _
    exact wp_refuse _ (fun _ kept => kept)
  intro finite
  have heads : Heads graph.names (.real (positiveZero bits)) []
      ⟨.real, 0, 1, 0, hashBytes (hashKind .real) (littleEndian 8 (positiveZero bits).toNat), 0, 0,
        .real (positiveZero bits)⟩ :=
    { kind := rfl
      aux := rfl
      childCount := rfl
      head := rfl
      payload := rfl }
  have proposes := proposes_atom heads ⟨rfl, canonicalReal_positiveZero finite⟩ rfl rfl
  exact wp_good (internNode_makes sound proposes) fun _ _ held => ⟨finite, held⟩

theorem irSymbolRef_makes (sound : Sound s.pools graph) (symbol : Nat) :
    wp (irSymbolRef symbol) (fun ref t => ∃ name, Named graph.names symbol name ∧
      Makes s graph (.node (.symbol name) []) ref t) (fun _ t => Kept s t) s := by
  unfold irSymbolRef
  simp only [wp_bind, wp_get]
  split
  · exact wp_refuse _ (fun _ kept => kept)
  rename_i record held
  obtain ⟨name, named, _, _, hash⟩ := sound.symbols.symbolAt_named held
  have heads : Heads graph.names (.symbol name) []
      ⟨.symbol, 0, 1, 0, hashU32 (hashU32 (hashKind .symbol) record.nameHash) 0, 0, symbol, .none⟩ :=
    { kind := rfl
      aux := rfl
      childCount := rfl
      head := named
      payload := trivial }
  have proposes := proposes_atom heads rfl (by rw [hash]; rfl) rfl
  exact wp_good (internNode_makes sound proposes) fun _ _ made => ⟨name, named, made⟩

def varianceOf (code : Nat) : Variance := if code = 0 then .lower else .upper

theorem code_varianceOf {code : Nat} (inside : ¬1 < code) : (varianceOf code).code = code := by
  unfold varianceOf
  split
  · rename_i zero
    exact zero.symm
  · change 1 = code
    omega

theorem irIndexInSpace_makes (sound : Sound s.pools graph) (name variance space : Nat) :
    wp (irIndexInSpace name variance space) (fun ref t => ∃ spelled held, Named graph.names name spelled ∧
      Titled graph.names space held ∧ variance ≤ 1 ∧
      Makes s graph (.node (.index spelled (varianceOf variance) held) []) ref t) (fun _ t => Kept s t) s := by
  unfold irIndexInSpace
  apply wp_ite
  · intro _
    exact wp_refuse _ (fun _ kept => kept)
  intro inside
  simp only [wp_bind, wp_get]
  split
  · exact wp_refuse _ (fun _ kept => kept)
  rename_i record held
  apply wp_ite
  · intro _
    exact wp_refuse _ (fun _ kept => kept)
  intro spaced
  obtain ⟨spelled, named, _, _, hash⟩ := sound.symbols.symbolAt_named held
  obtain ⟨title, titled, spaceHash⟩ : ∃ title, Titled graph.names space title ∧
      ((symbolAt s.pools space).map SymbolRecord.nameHash).getD 0 = (title.map hashName).getD 0 := by
    by_cases zero : space = 0
    · subst zero
      exact ⟨none, rfl, rfl⟩
    · cases found : symbolAt s.pools space with
      | none => exact absurd ⟨zero, found⟩ spaced
      | some record' =>
        obtain ⟨title, titled, _, _, hash'⟩ := sound.symbols.symbolAt_named found
        exact ⟨some title, titled, hash'⟩
  have heads : Heads graph.names (.index spelled (varianceOf variance) title) []
      ⟨.index, variance, 1, 0, hashU32 (hashU32 (hashU32 (hashKind .index) record.nameHash) (UInt32.ofNat variance))
        (((symbolAt s.pools space).map SymbolRecord.nameHash).getD 0), 0, name, .indexSpace space⟩ :=
    { kind := rfl
      aux := (code_varianceOf inside).symm
      childCount := rfl
      head := named
      payload := by
        cases title with
        | none => exact congrArg Payload.indexSpace titled
        | some title => exact ⟨space, rfl, titled⟩ }
  have proposes := proposes_atom heads rfl (by
    rw [spaceHash, hash]
    change _ = hashU32 (hashU32 (hashU32 (hashKind .index) (hashName spelled)) (UInt32.ofNat (varianceOf variance).code)) _
    rw [code_varianceOf inside]) rfl
  exact wp_good (internNode_makes sound proposes)
    fun _ _ made => ⟨spelled, title, named, titled, Nat.le_of_not_lt inside, made⟩

theorem irError_makes (sound : Sound s.pools graph) (code : Nat) :
    wp (irError code) (fun ref t => code ≠ 0 ∧ code < statusCount ∧ Makes s graph (.node (.error code) []) ref t)
      (fun _ t => Kept s t) s := by
  unfold irError
  apply wp_ite
  · intro _
    exact wp_refuse _ (fun _ kept => kept)
  intro inside
  obtain ⟨positive, below⟩ := not_or.mp inside
  have below' : code < statusCount := Nat.lt_of_not_le below
  have heads : Heads graph.names (.error code) []
      ⟨.error, code, 1, 0, hashU32 (hashKind .error) (UInt32.ofNat code), 0, 0, .none⟩ :=
    { kind := rfl
      aux := rfl
      childCount := rfl
      head := rfl
      payload := trivial }
  have proposes := proposes_atom heads ⟨rfl, positive, below'⟩ rfl rfl
  exact wp_good (internNode_makes sound proposes) fun _ _ made => ⟨positive, below', made⟩

def treesOf (graph : Graph) (refs : List Nat) : List Expr := refs.filterMap (treeAt graph.entries)

variable {pools : Pools}

theorem node_of_tree {node : Node} (sound : Sound pools graph) (listed : nodeAt pools ref = some node)
    (held : treeAt graph.entries ref = some expr) :
    node.hash = hash expr ∧ node.depth = expr.height ∧ node.kind = expr.label.kind ∧
      node.childCount = expr.children.length ∧ treesOf graph (childrenOf pools node) = expr.children ∧
      ∀ child ∈ childrenOf pools node, Live graph.entries child := by
  obtain ⟨entry, stored, reads, described⟩ := sound.nodes.entryAt_node listed
  obtain ⟨hash, depth⟩ := described expr held
  have live := sound.wellFormed.live stored
  rw [treeAt_of_entryAt sound.wellFormed.backward stored] at held
  obtain rfl := Option.some.inj held
  refine ⟨hash, depth, reads.kind, ?_, ?_, ?_⟩
  · rw [Rose.children_node, length_filterMap_treeAt live, reads.childCount]
  · rw [reads.children]
    rfl
  · rw [reads.children]
    exact live

theorem live_of_nodeAt {node : Node} (sound : Sound pools graph) (listed : nodeAt pools ref = some node) :
    Live graph.entries ref := by
  obtain ⟨entry, stored, _⟩ := sound.nodes.entryAt_node listed
  exact live_iff_entryAt.mpr ⟨entry, stored⟩

theorem operandNodes_spec {nodes : List Node} (sound : Sound pools graph)
    (all : operandNodes pools refs = some nodes) : (∀ ref ∈ refs, Live graph.entries ref) ∧
      ∀ {β : Type} (part : Node → β) (value : Expr → β), (∀ ref node expr, nodeAt pools ref = some node →
        treeAt graph.entries ref = some expr → part node = value expr) →
        nodes.map part = (treesOf graph refs).map value := by
  induction refs generalizing nodes with
  | nil =>
    obtain rfl : [] = nodes := by simpa [operandNodes] using all
    exact ⟨fun _ inside => absurd inside List.not_mem_nil, fun _ _ _ => rfl⟩
  | cons ref rest ih =>
    obtain ⟨node, listed, others, later, rfl⟩ : ∃ node, nodeAt pools ref = some node ∧ ∃ others,
        operandNodes pools rest = some others ∧ nodes = node :: others := by
      unfold operandNodes at all ⊢
      rw [List.mapM_cons] at all
      cases listed : nodeAt pools ref with
      | none => simp [listed] at all
      | some node =>
        cases later : rest.mapM (nodeAt pools) with
        | none => simp [listed, later] at all
        | some others => exact ⟨node, rfl, others, rfl, by simpa [listed, later] using all.symm⟩
    obtain ⟨live, agree⟩ := ih later
    have here := live_of_nodeAt sound listed
    refine ⟨?_, ?_⟩
    · intro other inside
      rcases List.mem_cons.mp inside with rfl | inside
      · exact here
      · exact live other inside
    · intro β part value same
      obtain ⟨expr, held⟩ := here.exists_tree
      rw [treesOf, List.filterMap_cons_some held, List.map_cons, List.map_cons, same ref node expr listed held,
        agree part value same]
      rfl

theorem operandsOk_spec (sound : Sound s.pools graph) (refs : List Nat) :
    wp (operandsOk refs) (fun depth t => t = s ∧ (∀ ref ∈ refs, Live graph.entries ref) ∧
      depth = ((treesOf graph refs).map Rose.height).foldl max 0 + 1) (fun _ t => Kept s t) s := by
  unfold operandsOk
  simp only [wp_bind, wp_get]
  apply wp_ite
  · intro _
    exact wp_refuse _ (fun _ kept => kept)
  intro _
  split
  · exact wp_refuse _ (fun _ kept => kept)
  rename_i nodes all
  obtain ⟨live, agree⟩ := operandNodes_spec sound all
  apply wp_ite
  · intro _
    exact wp_refuse _ (fun _ kept => kept)
  intro _
  refine ⟨rfl, live, ?_⟩
  rw [agree Node.depth Rose.height (fun ref node expr listed held => (node_of_tree sound listed held).2.1)]

theorem child_hashes {children : List Nat} (sound : Sound pools graph)
    (live : ∀ child ∈ children, Live graph.entries child) :
    (children.map fun child => ((nodeAt pools child).map Node.hash).getD 0) = (treesOf graph children).map hash := by
  induction children with
  | nil => rfl
  | cons child rest ih =>
    obtain ⟨expr, held⟩ := (live child List.mem_cons_self).exists_tree
    obtain ⟨node, listed⟩ := nodeAt_of_treeAt sound held
    rw [treesOf, List.filterMap_cons_some held, List.map_cons, List.map_cons,
      ih (fun c inside => live c (List.mem_cons_of_mem _ inside)), listed, Option.map_some, Option.getD_some,
      (node_of_tree sound listed held).1]
    rfl

theorem internCompound_makes (sound : Sound s.pools graph) {children : List Nat} {symbol : Nat}
    (compound : label.atom = false) (live : ∀ child ∈ children, Live graph.entries child)
    (shaped : Shaped label (treesOf graph children)) (titled : Titled graph.names symbol label.head) :
    wp (internNode
        ⟨label.kind, 0, ((treesOf graph children).map Rose.height).foldl max 0 + 1, children.length,
          hashCompound label.kind ((label.head.map hashName).getD 0) ((treesOf graph children).map hash), 0, symbol, .none⟩
        ⟨children, none, none⟩)
      (Makes s graph (.node label (treesOf graph children))) (fun _ t => Kept s t) s := by
  have plain : ratOf label = none ∧ promotedOf label = none ∧ label.aux = 0 ∧ InlinePayload graph.names label .none := by
    cases label <;> first
      | (cases compound; done)
      | exact ⟨rfl, rfl, rfl, trivial⟩
  obtain ⟨rat, promoted, aux, payload⟩ := plain
  have extra : Extra.mk children none none = extraOf ⟨label, children⟩ := by
    rw [extraOf, rat, promoted]
  have proposes : Proposes graph ⟨label, children⟩
      ⟨label.kind, 0, ((treesOf graph children).map Rose.height).foldl max 0 + 1, children.length,
        hashCompound label.kind ((label.head.map hashName).getD 0) ((treesOf graph children).map hash), 0, symbol, .none⟩ :=
    { kind := rfl
      aux := by rw [nodeAux, if_pos promoted, aux]
      childCount := rfl
      head := by
        cases name : label.head <;> rw [name] at titled <;> exact titled
      payload := payload
      live := live
      shaped := shaped
      hash := by
        change _ = Expressions.hash (Rose.node label (treesOf graph children))
        rw [hash_node]
        cases label <;> first
          | (cases compound; done)
          | rfl
      depth := (Rose.height_node _ _).symm }
  rw [extra]
  exact internNode_makes sound proposes

/-- Every operand is a node. -/
def AllLive (graph : Graph) (refs : List Nat) : Prop := ∀ ref ∈ refs, Live graph.entries ref

theorem makeCompound_plain (label : Label) (sound : Sound s.pools graph) (children : List Nat) (compound : label.atom = false)
    (plain : label.head = none ∧ label.kind.headed = false)
    (shaped : AllLive graph children → Shaped label (treesOf graph children)) :
    wp (makeCompound label.kind 0 children)
      (fun ref t => AllLive graph children ∧ Makes s graph (.node label (treesOf graph children)) ref t)
      (fun _ t => Kept s t) s := by
  obtain ⟨headless, unheaded⟩ := plain
  unfold makeCompound
  simp only [wp_bind]
  refine wp_good (operandsOk_spec sound children) fun depth t held => ?_
  obtain ⟨rfl, live, rfl⟩ := held
  simp only [wp_get, unheaded, Bool.false_eq_true, if_false]
  rw [child_hashes sound live]
  have made := internCompound_makes sound compound live (shaped live)
    (show Titled graph.names 0 label.head by rw [headless]; rfl)
  rw [headless] at made
  exact wp_good made fun _ _ held => ⟨live, held⟩

def Headed (withHead : Name → Label) : Prop :=
  ∀ name, (withHead name).atom = false ∧ (withHead name).head = some name ∧ (withHead name).kind.headed = true

theorem makeCompound_headed (sound : Sound s.pools graph) {kind : Kind} {withHead : Name → Label} (head : Nat)
    (children : List Nat) (headed : Headed withHead) (kinds : ∀ name, (withHead name).kind = kind)
    (shaped : ∀ name, AllLive graph children → Shaped (withHead name) (treesOf graph children)) :
    wp (makeCompound kind head children)
      (fun ref t => ∃ name, Named graph.names head name ∧ AllLive graph children ∧
        Makes s graph (.node (withHead name) (treesOf graph children)) ref t)
      (fun _ t => Kept s t) s := by
  unfold makeCompound
  simp only [wp_bind]
  refine wp_good (operandsOk_spec sound children) fun depth t held => ?_
  obtain ⟨rfl, live, rfl⟩ := held
  have flag : kind.headed = true := kinds [] ▸ (headed []).2.2
  simp only [wp_get, flag, if_true]
  split
  · exact wp_refuse _ (fun _ kept => kept)
  rename_i record held
  obtain ⟨name, named, _, _, hash⟩ := sound.symbols.symbolAt_named held
  obtain ⟨compound, title, _⟩ := headed name
  rw [child_hashes sound live, hash, ← kinds name]
  have made := internCompound_makes sound compound live (shaped name live)
    (show Titled graph.names head (withHead name).head by rw [title]; exact named)
  rw [title] at made
  exact wp_good made fun _ _ held => ⟨name, named, live, held⟩

theorem length_treesOf (live : AllLive graph refs) : (treesOf graph refs).length = refs.length :=
  length_filterMap_treeAt live

theorem irPow_makes (sound : Sound s.pools graph) (base exponent : Nat) :
    wp (irPow base exponent) (fun ref t => AllLive graph [base, exponent] ∧
      Makes s graph (.node .pow (treesOf graph [base, exponent])) ref t) (fun _ t => Kept s t) s :=
  makeCompound_plain .pow sound [base, exponent] rfl ⟨rfl, rfl⟩ (fun live => length_treesOf live)

theorem irEquation_makes (sound : Sound s.pools graph) (lhs rhs : Nat) :
    wp (irEquation lhs rhs) (fun ref t => AllLive graph [lhs, rhs] ∧
      Makes s graph (.node .equation (treesOf graph [lhs, rhs])) ref t) (fun _ t => Kept s t) s :=
  makeCompound_plain .equation sound [lhs, rhs] rfl ⟨rfl, rfl⟩ (fun live => length_treesOf live)

theorem irFunction_makes (sound : Sound s.pools graph) (head : Nat) (args : List Nat) :
    wp (irFunction head args) (fun ref t => ∃ name, Named graph.names head name ∧ AllLive graph args ∧
      Makes s graph (.node (.function name) (treesOf graph args)) ref t) (fun _ t => Kept s t) s :=
  makeCompound_headed sound head args (fun _ => ⟨rfl, rfl, rfl⟩) (fun _ => rfl) (fun _ _ => trivial)

theorem irOperator_makes (sound : Sound s.pools graph) (head : Nat) (args : List Nat) :
    wp (irOperator head args) (fun ref t => ∃ name, Named graph.names head name ∧ AllLive graph args ∧
      Makes s graph (.node (.operator name) (treesOf graph args)) ref t) (fun _ t => Kept s t) s :=
  makeCompound_headed sound head args (fun _ => ⟨rfl, rfl, rfl⟩) (fun _ => rfl) (fun _ _ => trivial)

theorem kindOf_treeAt (sound : Sound pools graph) (held : treeAt graph.entries ref = some expr) :
    kindOf pools ref = expr.label.kind := by
  obtain ⟨node, listed⟩ := nodeAt_of_treeAt sound held
  rw [kindOf, listed, Option.map_some, Option.getD_some, (node_of_tree sound listed held).2.2.1]

theorem irTensor_makes (sound : Sound s.pools graph) (head : Nat) (indices : List Nat) :
    wp (irTensor head indices) (fun ref t => ∃ name, Named graph.names head name ∧ AllLive graph indices ∧
      (∀ index ∈ treesOf graph indices, index.label.kind = .index) ∧
      Makes s graph (.node (.tensor name) (treesOf graph indices)) ref t) (fun _ t => Kept s t) s := by
  unfold irTensor
  simp only [wp_bind, wp_get]
  apply wp_ite
  · intro _
    exact wp_refuse _ (fun _ kept => kept)
  intro allowed
  have indexed : ∀ index ∈ treesOf graph indices, index.label.kind = .index := by
    intro index inside
    obtain ⟨ref, listed, held⟩ := List.mem_filterMap.mp inside
    rw [← kindOf_treeAt sound held]
    by_contra other
    exact allowed (List.any_eq_true.mpr ⟨ref, listed, decide_eq_true other⟩)
  have headed : Headed .tensor := fun _ => ⟨rfl, rfl, rfl⟩
  refine wp_good (makeCompound_headed sound head indices headed (fun _ => rfl) (fun _ _ => indexed)) fun ref t held => ?_
  obtain ⟨name, named, live, made⟩ := held
  exact ⟨name, named, live, indexed, made⟩

theorem irDerivative_makes (sound : Sound s.pools graph) (expr : Nat) (vars : List Nat) :
    wp (irDerivative expr vars) (fun ref t => vars ≠ [] ∧ AllLive graph (expr :: vars) ∧
      (∀ var ∈ treesOf graph vars, var.label.kind = .symbol ∨ var.label.kind = .index) ∧
      Makes s graph (.node .derivative (treesOf graph (expr :: vars))) ref t) (fun _ t => Kept s t) s := by
  unfold irDerivative
  apply wp_ite
  · intro _
    exact wp_refuse _ (fun _ kept => kept)
  intro some
  simp only [wp_bind, wp_get]
  apply wp_ite
  · intro _
    exact wp_refuse _ (fun _ kept => kept)
  intro allowed
  apply wp_ite
  · intro _
    exact wp_refuse _ (fun _ kept => kept)
  intro _
  have named : ∀ var ∈ treesOf graph vars, var.label.kind = .symbol ∨ var.label.kind = .index := by
    intro var inside
    obtain ⟨ref, listed, held⟩ := List.mem_filterMap.mp inside
    rw [Bool.not_eq_true', Bool.not_eq_false, List.all_eq_true] at allowed
    have kind := allowed ref listed
    rwa [Bool.or_eq_true, decide_eq_true_eq, decide_eq_true_eq, kindOf_treeAt sound held] at kind
  simp only [wp_bind]
  refine wp_good (reserve_spec _ _) fun _ t kept => ?_
  have sound' : Sound t.pools graph := kept.pools ▸ sound
  have shaped (live : AllLive graph (expr :: vars)) : Shaped .derivative (treesOf graph (expr :: vars)) := by
    obtain ⟨tree, held⟩ := (live expr List.mem_cons_self).exists_tree
    have later : AllLive graph vars := fun ref inside => live ref (List.mem_cons_of_mem _ inside)
    have size := length_treesOf later
    have cut : treesOf graph (expr :: vars) = tree :: treesOf graph vars := List.filterMap_cons_some held
    rw [cut]
    refine ⟨?_, named⟩
    rw [List.length_cons, size]
    have := List.length_pos_iff.mpr some
    omega
  refine wp_mono (makeCompound_plain .derivative sound' (expr :: vars) rfl ⟨rfl, rfl⟩ shaped) (fun ref u held => ?_)
    (fun _ _ stopped => kept.trans stopped)
  exact ⟨some, held.1, named, held.2.of_kept kept⟩

def Associative (label : Label) : Prop := label = .add ∨ label = .mul ∨ label = .ncmul ∨ label = .wedge

theorem Associative.spec (associative : Associative label) : label.atom = false ∧ label.head = none ∧
    label.kind.headed = false ∧ label.kind.associative = true := by
  rcases associative with rfl | rfl | rfl | rfl <;> exact ⟨rfl, rfl, rfl, rfl⟩

theorem Associative.kind_eq_iff {other : Label} (associative : Associative label) : other.kind = label.kind ↔ other = label := by
  constructor
  · intro kind
    rcases associative with rfl | rfl | rfl | rfl <;> cases other <;> first
      | rfl
      | cases kind
      | (rw [kind_exact] at kind
         split at kind <;> cases kind)
  · rintro rfl
    rfl

theorem Associative.shaped {run : List Expr} (associative : Associative label) (long : 2 ≤ run.length)
    (apart : ∀ part ∈ run, part.label ≠ label) (sorted : label.kind.commutative = true → SortedExprs run) :
    Shaped label run := by
  rcases associative with rfl | rfl | rfl | rfl
  · exact ⟨⟨long, apart⟩, sorted rfl⟩
  · exact ⟨⟨long, apart⟩, sorted rfl⟩
  · exact ⟨long, apart⟩
  · exact ⟨long, apart⟩

theorem Associative.settled {operand : Expr} (associative : Associative label)
    (shaped : Shaped operand.label operand.children) : Settled label operand := by
  intro same
  rw [same] at shaped
  rcases associative with rfl | rfl | rfl | rfl
  · exact ⟨shaped.1.1, shaped.1.2, fun _ => shaped.2⟩
  · exact ⟨shaped.1.1, shaped.1.2, fun _ => shaped.2⟩
  · exact ⟨shaped.1, shaped.2, fun commutes => nomatch commutes⟩
  · exact ⟨shaped.1, shaped.2, fun commutes => nomatch commutes⟩

theorem shaped_of_treeAt (wellFormed : WellFormed graph) (held : treeAt graph.entries ref = some expr) :
    Shaped expr.label expr.children := by
  obtain ⟨entry, stored⟩ := live_iff_entryAt.mp (live_of_treeAt held)
  rw [treeAt_of_entryAt wellFormed.backward stored] at held
  obtain rfl := Option.some.inj held
  exact wellFormed.shaped ref entry stored

theorem shaped_of_mem_treesOf (wellFormed : WellFormed graph) :
    ∀ expr ∈ treesOf graph refs, Shaped expr.label expr.children := by
  intro expr inside
  obtain ⟨ref, _, held⟩ := List.mem_filterMap.mp inside
  exact shaped_of_treeAt wellFormed held

theorem stageOperand_spec (sound : Sound pools graph) (associative : Associative label)
    (held : treeAt graph.entries ref = some expr) :
    treesOf graph (stageOperand pools label.kind ref) = contribution label expr ∧
      AllLive graph (stageOperand pools label.kind ref) := by
  obtain ⟨node, listed⟩ := nodeAt_of_treeAt sound held
  obtain ⟨_, _, kind, _, children, live⟩ := node_of_tree sound listed held
  unfold stageOperand contribution
  rw [listed]
  dsimp only
  rw [kind, associative.spec.2.2.2]
  simp only [true_and, associative.kind_eq_iff]
  split
  · exact ⟨children, live⟩
  · refine ⟨List.filterMap_cons_some held, ?_⟩
    intro other inside
    rw [List.mem_singleton.mp inside]
    exact live_of_treeAt held

theorem flatMap_stageOperand {operands : List Nat} (sound : Sound pools graph)
    (associative : Associative label) (live : AllLive graph operands) :
    treesOf graph (operands.flatMap (stageOperand pools label.kind)) =
      (treesOf graph operands).flatMap (contribution label) ∧
      AllLive graph (operands.flatMap (stageOperand pools label.kind)) := by
  induction operands with
  | nil => exact ⟨rfl, fun _ inside => absurd inside List.not_mem_nil⟩
  | cons operand rest ih =>
    obtain ⟨expr, held⟩ := (live operand List.mem_cons_self).exists_tree
    obtain ⟨trees, alive⟩ := stageOperand_spec sound associative held
    obtain ⟨trees', alive'⟩ := ih (fun ref inside => live ref (List.mem_cons_of_mem _ inside))
    have cut : treesOf graph (operand :: rest) = expr :: treesOf graph rest := List.filterMap_cons_some held
    rw [List.flatMap_cons, cut, List.flatMap_cons, ← trees, ← trees']
    refine ⟨List.filterMap_append, ?_⟩
    intro ref inside
    rcases List.mem_append.mp inside with first | later
    · exact alive ref first
    · exact alive' ref later

theorem staged_spec (label : Label) (sound : Sound pools graph) (live : AllLive graph refs) :
    treesOf graph (if label.kind.commutative then irSortRefs pools refs else refs) = arrange label (treesOf graph refs) ∧
      AllLive graph (if label.kind.commutative then irSortRefs pools refs else refs) := by
  unfold arrange
  split
  · refine ⟨filterMap_irSortRefs sound refs, ?_⟩
    intro ref inside
    exact live ref ((irSortRefs_spec sound refs).2.mem_iff.mp inside)
  · exact ⟨rfl, live⟩

/-- `make_nary`: the run of its operands, packed. -/
theorem makeNary_makes (sound : Sound s.pools graph) (associative : Associative label) (operands : List Nat) :
    wp (makeNary label.kind operands) (fun ref t => operands ≠ [] ∧ AllLive graph operands ∧
      Makes s graph (nary label (treesOf graph operands)) ref t) (fun _ t => Kept s t) s := by
  obtain ⟨compound, headless, unheaded, absorbs⟩ := associative.spec
  unfold makeNary
  apply wp_ite
  · intro _
    exact wp_refuse _ (fun _ kept => kept)
  intro some
  simp only [wp_bind, wp_get]
  split
  · exact wp_refuse _ (fun _ kept => kept)
  rename_i nodes all
  obtain ⟨live, _⟩ := operandNodes_spec sound all
  apply wp_ite
  · intro _
    exact wp_refuse _ (fun _ kept => kept)
  intro _
  simp only [wp_bind]
  refine wp_good (reserve_spec _ _) fun _ t kept => ?_
  have sound' : Sound t.pools graph := kept.pools ▸ sound
  obtain ⟨flat, alive⟩ := flatMap_stageOperand sound associative live
  obtain ⟨trees, alive'⟩ := staged_spec label sound alive
  rw [flat] at trees
  have settled : ∀ operand ∈ treesOf graph operands, Settled label operand := fun operand inside =>
    associative.settled (shaped_of_mem_treesOf sound.wellFormed operand inside)
  have exprs : treesOf graph operands ≠ [] := by
    intro empty
    have size := length_treesOf live
    rw [empty] at size
    exact some (List.length_eq_zero_iff.mp size.symm)
  have filled : arrange label ((treesOf graph operands).flatMap (contribution label)) ≠ [] :=
    arrange_ne_nil (flatMap_contribution_ne_nil exprs settled)
  have apart := arrange_ne (flatMap_contribution_ne settled)
  have sorted : label.kind.commutative = true →
      SortedExprs (arrange label ((treesOf graph operands).flatMap (contribution label))) := arrange_sorted _
  rw [nary]
  rw [← trees] at filled apart sorted ⊢
  generalize (if label.kind.commutative = true then irSortRefs s.pools _ else _) = staged at *
  split
  · rename_i single
    obtain ⟨expr, held⟩ := (alive' single List.mem_cons_self).exists_tree
    have cut : treesOf graph [single] = [expr] := List.filterMap_cons_some held
    rw [if_pos absorbs, cut]
    exact ⟨some, live, makes_of_held sound held kept⟩
  · rename_i plural
    have long : 2 ≤ (treesOf graph staged).length := by
      rw [length_treesOf alive']
      cases staged with
      | nil => exact absurd rfl filled
      | cons first rest =>
        cases rest with
        | nil => exact absurd rfl (plural first)
        | cons second rest => simp
    have node : pack label (treesOf graph staged) = .node label (treesOf graph staged) := by
      unfold pack
      split
      · rename_i single
        rw [single] at long
        exact absurd long (by simp)
      · rfl
    rw [node]
    refine wp_mono (makeCompound_plain label sound' staged compound ⟨headless, unheaded⟩
      (fun _ => associative.shaped long apart sorted)) (fun ref u held => ?_) (fun _ _ stopped => kept.trans stopped)
    exact ⟨some, live, held.2.of_kept kept⟩

end PhyNspire.Ir.Construction
