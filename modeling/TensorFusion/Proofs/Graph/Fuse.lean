import TensorFusion.Graph.Fuse
import TensorFusion.Proofs.Graph.Path

/-!
# Proofs — Graph — Fuse

What the fusion of a path makes of an arena. The first node becomes the fused operator and takes
over the consumers of the last; the nodes between are left without consumers from outside.
-/

namespace TensorFusion

/-! ## The fused operator -/

/-- The renaming for operators of a type; none where the type is no key. -/
def Template.renaming (t : Template) : Value → Renaming
  | .atom opType => (t.rename.get? opType).getD []
  | _ => []

/-- Adds what an operator has, under the names that a template gives for its type. -/
def Gathered.addAs (t : Template) (g : Gathered) (op : Op) : Gathered :=
  g.add (t.renaming op.opType) op

/-- What is gathered from several operators, one after another. -/
def Template.merge (t : Template) (ops : List Op) : Gathered := ops.foldl (Gathered.addAs t) {}

/-- What an operator becomes that takes in the ones that follow it. -/
def Template.fusedOp (t : Template) (root : Op) (rest : List Op) : Op where
  opType := t.fusedType
  inputs := root.inputs
  outputs := Slots.join {} (rest.getLastD root).outputs
  attrs := (t.merge (root :: rest)).attrs
  params := (t.merge (root :: rest)).params

theorem Gathered.take_eq {t : Template} {g : Gathered} {op : Op} {opType : Atom}
    (h : op.opType = .atom opType) : g.take t op = .ok (g.addAs t op) := by
  unfold Gathered.take
  split
  next hempty =>
    simp only [Bool.and_eq_true, List.isEmpty_iff] at hempty
    simp [Gathered.addAs, Gathered.add, hempty.1, hempty.2]
  next =>
    rw [h]
    simp only [Template.renamesFor, ok_bind, Gathered.addAs, Template.renaming, h]
    rfl

/-! ## Handing over -/

/-- A position in the place of another. -/
def redirect (old new i : Nat) : Nat := if i = old then new else i

theorem redirect_redirect (old new i : Nat) :
    redirect old new (redirect old new i) = redirect old new i := by
  unfold redirect
  split <;> simp

namespace Walk

variable {a : Arena} {root leaf : Nat}

/-- An arena in which some consumers of one node have become consumers of another. -/
structure Relinked (root leaf : Nat) (consumers : List Nat) (a b : Arena) : Prop where
  size : b.size = a.size
  op? : ∀ i, b.op? i = a.op? i
  outputs : ∀ i, b.outputs i = a.outputs i
  inputs : ∀ i, b.inputs i
    = if i ∈ consumers then (a.inputs i).map (redirect leaf root) else a.inputs i

theorem foldlM_relink (root leaf : Nat) {consumers : List Nat} (h : ∀ k ∈ consumers, k < a.size) :
    ∃ b, consumers.foldlM (relink root leaf) a = .ok b ∧ Relinked root leaf consumers a b := by
  induction consumers generalizing a with
  | nil => exact ⟨a, rfl, ⟨rfl, fun _ => rfl, fun _ => rfl, fun _ => by simp⟩⟩
  | cons k consumers ih =>
    have hk : k < a.size := h k (by simp)
    have hstep : relink root leaf a k = .ok (a.mapInputs k (List.map (redirect leaf root))) :=
      if_pos hk
    obtain ⟨b, hb, hrel⟩ := ih (a := a.mapInputs k (List.map (redirect leaf root)))
      fun k' hk' => by simpa using h k' (by simp [hk'])
    refine ⟨b, by rw [List.foldlM_cons, hstep, ok_bind, hb], ?_, fun i => ?_, fun i => ?_,
      fun i => ?_⟩
    · simp [hrel.size]
    · simp [hrel.op?]
    · simp [hrel.outputs]
    · rw [hrel.inputs]
      by_cases hik : i = k
      · -- A consumer that comes up again is redirected again, which changes nothing.
        subst hik
        simp [Arena.inputs_mapInputs_self hk, redirect_redirect, Function.comp_def]
      · simp [Arena.inputs_mapInputs_ne hik, hik]

/-- An arena in which a node has handed over its consumers and its output slots to another. -/
structure HandedOver (root leaf : Nat) (a b : Arena) : Prop where
  size : b.size = a.size
  op?_root : ∀ op last, a.op? root = some op → a.op? leaf = some last →
    b.op? root = some { op with outputs := op.outputs.join last.outputs }
  op?_ne : ∀ i, i ≠ root → b.op? i = a.op? i
  outputs_root : b.outputs root = a.outputs root ++ a.outputs leaf
  outputs_ne : ∀ i, i ≠ root → b.outputs i = a.outputs i
  inputs : ∀ i, b.inputs i
    = if i ∈ a.outputs leaf then (a.inputs i).map (redirect leaf root) else a.inputs i

theorem handOver_eq (leaf : Nat) {w : Walk} (hroot : root < w.arena.size)
    (h : ∀ k ∈ w.arena.outputs leaf, k < w.arena.size) :
    ∃ b, handOver root leaf w = .ok { w with arena := b } ∧ HandedOver root leaf w.arena b := by
  have hrange : ∀ k ∈ (w.arena.outputs leaf).eraseDups,
      k < (w.arena.mapOutputs root (· ++ w.arena.outputs leaf)).size := fun k hk => by
    simpa using h k (List.mem_eraseDups.mp hk)
  obtain ⟨b, hb, hrel⟩ := foldlM_relink root leaf hrange
  let slots := ((b.node? leaf).map (·.op.outputs)).getD {}
  refine ⟨b.mapOp root fun op => { op with outputs := op.outputs.join slots }, ?_, ?_,
    fun op last hop hlast => ?_, fun i hi => ?_, ?_, fun i hi => ?_, fun i => ?_⟩
  · have hrelink : List.foldlM (relink root leaf)
        (w.arena.update root fun node => { node with outputs := node.outputs ++ _ })
        (w.arena.outputs leaf).eraseDups = .ok b := hb
    simp only [handOver, hrelink, ok_bind]
    rfl
  · simp [hrel.size]
  · have hleaf : b.op? leaf = some last := by simpa [hrel.op?] using hlast
    have hslots : slots = last.outputs := by simp [slots, Arena.node?_of_op? hleaf]
    simp [hrel.op?, hop, hslots]
  · simp [Arena.op?_mapOp_ne hi, hrel.op?]
  · simp [hrel.outputs, Arena.outputs_mapOutputs_self hroot]
  · simp [hrel.outputs, Arena.outputs_mapOutputs_ne hi]
  · simp [hrel.inputs, List.mem_eraseDups]

/-! ## Detaching -/

/-- A node is one of those that a fusion takes in. -/
abbrev IsInside (root : Nat) (absorbed : List Nat) (i : Nat) : Prop :=
  i = root ∨ absorbed.contains i = true

/-- Takes away the edge from a node, if it is outside, to a node inside. -/
def unlink (root : Nat) (absorbed : List Nat) (k : Nat) (a : Arena) (producer : Nat) : Arena :=
  if IsInside root absorbed producer then a else a.mapOutputs producer (List.filter (· ≠ k))

variable {absorbed : List Nat} {k i : Nat}

theorem detachOne_eq : detachOne root absorbed a k
    = (a.inputs k).eraseDups.foldl (unlink root absorbed k) a := rfl

theorem size_unlink (producer : Nat) : (unlink root absorbed k a producer).size = a.size := by
  unfold unlink
  split <;> simp

theorem op?_unlink (producer : Nat) : (unlink root absorbed k a producer).op? i = a.op? i := by
  unfold unlink
  split <;> simp

theorem inputs_unlink (producer : Nat) :
    (unlink root absorbed k a producer).inputs i = a.inputs i := by
  unfold unlink
  split <;> simp

theorem outputs_unlink_inside (hi : IsInside root absorbed i) (producer : Nat) :
    (unlink root absorbed k a producer).outputs i = a.outputs i := by
  unfold unlink
  split
  · rfl
  next hout =>
    refine Arena.outputs_mapOutputs_ne ?_
    rintro rfl
    exact hout hi

theorem outputs_unlink_ne {producer : Nat} (hne : i ≠ producer) :
    (unlink root absorbed k a producer).outputs i = a.outputs i := by
  unfold unlink
  split
  · rfl
  · exact Arena.outputs_mapOutputs_ne hne

theorem outputs_unlink_self (hi : ¬ IsInside root absorbed i) :
    (unlink root absorbed k a i).outputs i = (a.outputs i).filter (· ≠ k) := by
  rw [unlink, if_neg hi]
  rcases Nat.lt_or_ge i a.size with hlt | hge
  · exact Arena.outputs_mapOutputs_self hlt
  · rw [Arena.outputs_eq_nil hge, Arena.outputs_eq_nil (by simpa using hge)]
    rfl

/-- What no edge taken away changes is as it was once they all are. -/
theorem foldl_unlink_view {α : Type} (view : Arena → α)
    (h : ∀ b producer, view (unlink root absorbed k b producer) = view b) (producers : List Nat) :
    view (producers.foldl (unlink root absorbed k) a) = view a := by
  induction producers generalizing a with
  | nil => rfl
  | cons producer producers ih => rw [List.foldl_cons, ih, h]

theorem outputs_foldl_unlink (hi : ¬ IsInside root absorbed i) (producers : List Nat) :
    (producers.foldl (unlink root absorbed k) a).outputs i
      = if i ∈ producers then (a.outputs i).filter (· ≠ k) else a.outputs i := by
  induction producers generalizing a with
  | nil => simp
  | cons producer producers ih =>
    rw [List.foldl_cons, ih]
    by_cases hip : i = producer
    · -- The edge may be taken away again further on, where it is gone already.
      subst hip
      simp [outputs_unlink_self hi, List.filter_filter]
    · simp [outputs_unlink_ne hip, hip]

/-- An arena in which the edges from nodes outside to some of the nodes inside are gone. -/
structure Detached (root : Nat) (absorbed gone : List Nat) (a b : Arena) : Prop where
  size : b.size = a.size
  op? : ∀ i, b.op? i = a.op? i
  inputs : ∀ i, b.inputs i = a.inputs i
  outputs_inside : ∀ i, IsInside root absorbed i → b.outputs i = a.outputs i
  outputs_outside : ∀ i, ¬ IsInside root absorbed i → b.outputs i
    = (a.outputs i).filter fun k => !(gone.contains k && (a.inputs k).contains i)

theorem Detached.detachOne {gone : List Nat} {b : Arena} (h : Detached root absorbed gone a b)
    (k : Nat) : Detached root absorbed (gone ++ [k]) a (detachOne root absorbed b k) := by
  rw [detachOne_eq]
  refine ⟨?_, fun i => ?_, fun i => ?_, fun i hi => ?_, fun i hi => ?_⟩
  · rw [foldl_unlink_view Arena.size (fun _ => size_unlink), h.size]
  · rw [foldl_unlink_view (·.op? i) (fun _ => op?_unlink), h.op?]
  · rw [foldl_unlink_view (·.inputs i) (fun _ => inputs_unlink), h.inputs]
  · rw [foldl_unlink_view (·.outputs i) (fun _ => outputs_unlink_inside hi),
      h.outputs_inside i hi]
  · rw [outputs_foldl_unlink hi, h.outputs_outside i hi, h.inputs]
    by_cases hik : i ∈ a.inputs k
    · rw [if_pos (List.mem_eraseDups.mpr hik), List.filter_filter]
      refine List.filter_congr fun k' _ => ?_
      by_cases hkk : k' = k <;> simp [hkk, hik]
    · rw [if_neg fun hmem => hik (List.mem_eraseDups.mp hmem)]
      refine List.filter_congr fun k' _ => ?_
      by_cases hkk : k' = k <;> simp [hkk, hik]

theorem detach_detached (root : Nat) (absorbed : List Nat) (a : Arena) :
    Detached root absorbed absorbed a (detach root absorbed a) := by
  suffices ∀ (rest gone : List Nat) (b : Arena), Detached root absorbed gone a b →
      Detached root absorbed (gone ++ rest) a (rest.foldl (detachOne root absorbed) b) from
    this absorbed [] a ⟨rfl, fun _ => rfl, fun _ => rfl, fun _ _ => rfl, fun _ _ => by simp⟩
  intro rest
  induction rest with
  | nil => intro gone b h; simpa using h
  | cons k rest ih =>
    intro gone b h
    simpa using ih (gone ++ [k]) _ (h.detachOne k)

/-! ## Walking down a path -/

/-- All operators at some positions. -/
def opsAt (a : Arena) (indices : List Nat) : List Op := indices.filterMap a.op?

theorem visit_eq {t : Template} {w : Walk} {index : Nat} {op : Op} {opType : Atom}
    (hType : op.opType = .atom opType) (hnew : index ∉ w.absorbed) :
    w.visit t index op = .ok { w with
      gathered := w.gathered.addAs t op, absorbed := w.absorbed ++ [index] } := by
  simp only [visit, Gathered.take_eq hType, ok_bind]
  rw [if_neg (by simpa using hnew)]
  rfl

/-- Down a path, all is gathered on the way, and only the last node hands over. -/
theorem absorb_path (t : Template) (root : Nat) {first : Value} {rest : List Value} {i : Nat}
    {ks : List Nat} {w : Walk} (hp : w.arena.Path first rest i ks)
    (hTypes : ∀ m ∈ i :: ks, ∀ op, w.arena.op? m = some op → ∃ a, op.opType = .atom a)
    (hnodup : (i :: ks).Nodup) (hnew : ∀ m ∈ i :: ks, m ∉ w.absorbed) :
    absorb t root (.chain first rest) i w = handOver root (leafOf i ks) { w with
      gathered := (opsAt w.arena (i :: ks)).foldl (Gathered.addAs t) w.gathered
      absorbed := w.absorbed ++ i :: ks } := by
  induction rest generalizing first i ks w with
  | nil =>
    cases hp with
    | last hop hType =>
      obtain ⟨opType, hatom⟩ := hTypes i (by simp) _ hop
      simp only [Pattern.chain, Pattern.leaf, absorb, Arena.node?_of_op? hop,
        visit_eq hatom (hnew i (by simp)), before_ok, ok_bind, List.isEmpty_nil, if_true, opsAt,
        List.filterMap_cons_some hop]
      rfl
  | cons second rest ih =>
    cases hp with
    | @step _ _ _ _ k ks op hop hType hout hrest =>
      obtain ⟨opType, hatom⟩ := hTypes i (by simp) _ hop
      let w₁ : Walk := { w with
        gathered := w.gathered.addAs t op, absorbed := w.absorbed ++ [i] }
      have hrec := ih (w := w₁) hrest (fun m hm => hTypes m (List.mem_cons_of_mem _ hm))
        (List.nodup_cons.mp hnodup).2 fun m hm => by
          have hne : m ≠ i := by
            rintro rfl
            exact (List.nodup_cons.mp hnodup).1 hm
          simp [w₁, hnew m (List.mem_cons_of_mem _ hm), hne]
      simp only [Pattern.chain, absorb, Arena.node?_of_op? hop, visit_eq hatom (hnew i (by simp)),
        before_ok, ok_bind, List.isEmpty_cons, Bool.false_eq_true, if_false, absorbOutputs, hout,
        List.getElem?_cons_zero]
      rw [hrec, leafOf_cons]
      simp only [w₁, opsAt, List.filterMap_cons_some hop, List.foldl_cons, List.append_assoc,
        List.singleton_append]
      -- There is one tree below a node of the path, so nothing is left to pair.
      cases handOver root (leafOf k ks) _ with
      | error stop => rfl
      | ok w₂ => rfl

end Walk

/-- The operator at the end of a path. -/
theorem Arena.Path.op?_leaf {a : Arena} {first : Value} {rest : List Value} {i : Nat}
    {ks : List Nat} (hp : a.Path first rest i ks) {op : Op} (hop : a.op? i = some op) :
    a.op? (leafOf i ks) = some ((Walk.opsAt a ks).getLastD op) := by
  induction hp generalizing op with
  | last => simpa [Walk.opsAt] using hop
  | @step _ _ _ _ k ks _ _ _ _ hrest ih =>
    obtain ⟨next, hnext, -⟩ := hrest.head
    have hops : Walk.opsAt a (k :: ks) = next :: Walk.opsAt a ks :=
      List.filterMap_cons_some hnext
    rw [leafOf_cons, hops, List.getLastD_cons]
    exact ih hnext

/-- What the fusion of a path makes of an arena. -/
structure Contracted (t : Template) (a : Arena) (root : Nat) (ks : List Nat) (f : Fused) :
    Prop where
  absorbed : f.absorbed = ks
  size : f.arena.size = a.size
  op?_root : ∀ op, a.op? root = some op →
    f.arena.op? root = some (t.fusedOp op (Walk.opsAt a ks))
  op?_ne : ∀ i, i ≠ root → f.arena.op? i = a.op? i
  inputs : ∀ i, f.arena.inputs i = if i ∈ a.outputs (leafOf root ks)
    then (a.inputs i).map (redirect (leafOf root ks) root) else a.inputs i
  outputs_root : f.arena.outputs root = a.outputs (leafOf root ks)
  outputs_outside : ∀ i, ¬ Walk.IsInside root ks i → f.arena.outputs i
    = (a.outputs i).filter fun k => !(ks.contains k && (f.arena.inputs k).contains i)

/-- An arena in which a node has no consumers and no output slots. -/
def Arena.clear (a : Arena) (root : Nat) : Arena :=
  (a.mapOp root fun op => { op with outputs := {} }).mapOutputs root fun _ => []

namespace Arena

variable {a : Arena} {root i : Nat}

@[simp] theorem size_clear : (a.clear root).size = a.size := by simp [clear]

@[simp] theorem inputs_clear : (a.clear root).inputs i = a.inputs i := by simp [clear]

theorem op?_clear_self : (a.clear root).op? root
    = (a.op? root).map fun op => { op with outputs := {} } := by
  simp [clear]

theorem op?_clear_ne (h : i ≠ root) : (a.clear root).op? i = a.op? i := by
  simp [clear, op?_mapOp_ne h]

theorem outputs_clear_self (h : root < a.size) : (a.clear root).outputs root = [] := by
  simp [clear, outputs_mapOutputs_self, h]

theorem outputs_clear_ne (h : i ≠ root) : (a.clear root).outputs i = a.outputs i := by
  simp [clear, outputs_mapOutputs_ne h]

end Arena

theorem Walk.descend_eq {t : Template} {first second : Value} {rest : List Value}
    (ht : t.root = .chain first (second :: rest)) {root k : Nat} {w : Walk}
    (hout : w.arena.outputs root = [k]) :
    w.descend t root = do
      let w ← absorb t root (.chain second rest) k { w with arena := w.arena.clear root }
      return { w with arena := detach root w.absorbed w.arena } := by
  have hclear : (w.arena.update root fun node => { node with outputs := [], op.outputs := {} })
      = w.arena.clear root := by
    rw [Arena.clear, Arena.mapOp, Arena.mapOutputs, Arena.update_update]
    rfl
  simp only [descend, hclear, hout, ht, Pattern.chain, Pattern.children, List.zip_cons_cons,
    List.zip_nil_left, absorbPairs, List.foldlM_cons, List.foldlM_nil, bind_pure]

section Path

variable {t : Template} {first second : Value} {rest : List Value} {a b : Arena} {root : Nat}
  {ks : List Nat} {op : Op}

/-- The fused operator in the place of the root. -/
def Template.put (t : Template) (merged : Gathered) (root : Nat) (a : Arena) : Arena :=
  a.mapOp root fun op =>
    { op with attrs := merged.attrs, params := merged.params, opType := t.fusedType }

/-- Once the last node of a path has handed over, and the edges into the path are gone, the path is
contracted. -/
theorem Template.contracted_put (hp : a.Path first rest root ks) (hop : a.op? root = some op)
    (hne : ∀ m ∈ ks, m ≠ root) (hks : ks ≠ [])
    (hover : Walk.HandedOver root (leafOf root ks) (a.clear root) b) :
    Contracted t a root ks
      ⟨t.put (t.merge (op :: Walk.opsAt a ks)) root (Walk.detach root ks b), ks⟩ := by
  have hroot : root < a.size := Arena.lt_size_of_op? hop
  have hleaf : leafOf root ks ≠ root := hne _ (leafOf_mem_of_ne_nil hks)
  have hdetach := Walk.detach_detached root ks b
  refine ⟨rfl, ?_, fun op' hop' => ?_, fun i hi => ?_, fun i => ?_, ?_, fun i hi => ?_⟩
  · simp [put, hdetach.size, hover.size]
  · rw [hop] at hop'
    cases hop'
    have hlast : (a.clear root).op? (leafOf root ks) = some ((Walk.opsAt a ks).getLastD op) := by
      rw [Arena.op?_clear_ne hleaf, hp.op?_leaf hop]
    have hhanded := hover.op?_root { op with outputs := {} } _
      (by rw [Arena.op?_clear_self, hop]; rfl) hlast
    rw [put, Arena.op?_mapOp_self, hdetach.op?, hhanded]
    rfl
  · rw [put, Arena.op?_mapOp_ne hi, hdetach.op?, hover.op?_ne i hi, Arena.op?_clear_ne hi]
  · rw [put, Arena.inputs_mapOp, hdetach.inputs, hover.inputs, Arena.outputs_clear_ne hleaf,
      Arena.inputs_clear]
  · rw [put, Arena.outputs_mapOp, hdetach.outputs_inside root (.inl rfl), hover.outputs_root,
      Arena.outputs_clear_self hroot, Arena.outputs_clear_ne hleaf, List.nil_append]
  · have hi' : i ≠ root := fun h => hi (.inl h)
    rw [put, Arena.outputs_mapOp, hdetach.outputs_outside i hi, hover.outputs_ne i hi',
      Arena.outputs_clear_ne hi']
    refine List.filter_congr fun k' _ => ?_
    rw [Arena.inputs_mapOp, hdetach.inputs]

/-- A path of at least two nodes can be fused. -/
theorem Template.fuse_path (ht : t.root = .chain first (second :: rest))
    (hp : a.Path first (second :: rest) root ks)
    (hTypes : ∀ m ∈ root :: ks, ∀ op, a.op? m = some op → ∃ b, op.opType = .atom b)
    (hnodup : (root :: ks).Nodup) (hrange : ∀ k ∈ a.outputs (leafOf root ks), k < a.size) :
    ∃ f, t.fuse a root = .ok f ∧ Contracted t a root ks f := by
  obtain ⟨op, hop, -⟩ := hp.head
  obtain ⟨opType, hatom⟩ := hTypes root (by simp) op hop
  have hne : ∀ m ∈ ks, m ≠ root := by
    rintro m hm rfl
    exact (List.nodup_cons.mp hnodup).1 hm
  have hks : ks ≠ [] := List.ne_nil_of_length_pos (by simp [hp.length_eq])
  have hleaf : leafOf root ks ≠ root := hne _ (leafOf_mem_of_ne_nil hks)
  -- Below the root, the walk sees the arena as it was.
  have hops : Walk.opsAt (a.clear root) ks = Walk.opsAt a ks :=
    List.filterMap_congr fun m hm => Arena.op?_clear_ne (hne m hm)
  let w : Walk := {
    arena := a.clear root
    gathered := t.merge (op :: Walk.opsAt a ks)
    absorbed := ks }
  have hroot : root < w.arena.size := by simpa [w] using Arena.lt_size_of_op? hop
  obtain ⟨b, hb, hover⟩ := Walk.handOver_eq (leafOf root ks) hroot
    (by simpa [w, Arena.outputs_clear_ne hleaf] using hrange)
  refine ⟨_, ?_, contracted_put hp hop hne hks hover⟩
  cases hp with
  | @step _ _ _ _ k ks _ _ _ hout hrest =>
  have habsorb := Walk.absorb_path t root
    (w := { arena := a.clear root, gathered := Gathered.addAs t {} op })
    (hrest.congr (fun m hm => Arena.op?_clear_ne (hne m hm))
      fun m hm k _ hk => by rw [Arena.outputs_clear_ne (hne m hm), hk])
    (fun m hm o ho => hTypes m (List.mem_cons_of_mem _ hm) o
      (by rwa [Arena.op?_clear_ne (hne m hm)] at ho))
    (List.nodup_cons.mp hnodup).2 fun m _ => by simp
  have hleafRoot : t.root.isLeaf = false := by
    simp [ht, Pattern.chain, Pattern.isLeaf, Pattern.children]
  have habsorbed : Walk.absorb t root (.chain second rest) k
      { arena := a.clear root, gathered := Gathered.addAs t {} op }
      = .ok { w with arena := b } := by
    rw [habsorb, ← hb, hops, leafOf_cons]
    rfl
  simp only [Template.fuse, Arena.node?_of_op? hop, Gathered.take_eq hatom, before_ok,
    ok_bind, hleafRoot, Bool.false_eq_true, if_false]
  rw [Walk.descend_eq ht hout, habsorbed]
  rfl

end Path

end TensorFusion
