import HazmatSha256.Cache.Build
import HazmatSha256.Cache.PathWrites
import Mathlib.Data.Set.List
set_option autoImplicit false

/-!
# Cache: a view over a tree

`SizzLean.Cache.TreeBacked`: a value, the tree of an earlier version of it, and the writes
that lie between.  Nothing is rebuilt before the root is read; then every write still to be
made reads its part from the view as it is by then.
-/

namespace HazmatSha256.Cache

open Foundation Shape Boxed Isal Evp Shim Merkle Ssz

variable {s : SSZType}

/-- From the latest view to the tree to put in place; nothing where the write is void. -/
abbrev PendingWrite (s : SSZType) : Type := s.interp → Option (Prog Node)

/-- The tree is built at its first read. -/
inductive TreeBase where
  | suspended (build : Prog Node)
  | forced (n : Node)

def TreeBase.get : TreeBase → Prog Node
  | suspended build => build
  | forced n => pure n

structure TreeBacked (s : SSZType) where
  view : s.interp
  treeBase : TreeBase
  pending : Std.TreeMap Nat (PendingWrite s)
  consing : Bool

namespace TreeBacked

def ofValue (v : s.interp) (consing : Bool) : TreeBacked s where
  view := v
  treeBase := .suspended do
    let fresh ← Node.ofShape hasher s v
    if consing then fresh.consTree conser else pure fresh
  pending := ∅
  consing := consing

def addPending (t : TreeBacked s) (g : Nat) (d : PendingWrite s) (newView : s.interp) :
    TreeBacked s :=
  { t with view := newView, pending := t.pending.insert g d }

/-- Of two writes to one node the later stays. -/
def addPendingMany (t : TreeBacked s) (updates : List (List Bool × PendingWrite s))
    (newView : s.interp) : TreeBacked s :=
  let newPending := updates.foldl (fun acc u => acc.insert (gindexOfBits u.1) u.2) t.pending
  { t with view := newView, pending := newPending }

def setFieldAt (t : TreeBacked s) (fieldCount k : Nat) (newSubtree : PendingWrite s)
    (newView : s.interp) : TreeBacked s :=
  let g := 2 ^ chunkDepth fieldCount + k
  t.addPending g newSubtree newView

def setAtBits (t : TreeBacked s) (bits : List Bool) (newSubtree : PendingWrite s)
    (newView : s.interp) : TreeBacked s :=
  t.addPending (gindexOfBits bits) newSubtree newView

/-- The trees to put in place, with their paths. -/
def materialize (consing : Bool) (view : s.interp) :
    List (Nat × PendingWrite s) → Prog (List (List Bool × Node))
  | [] => pure []
  | (g, d) :: rest => match d view with
      | none => materialize consing view rest
      | some build => do
          let fresh ← build
          let n ← (if consing then fresh.consTree conser else pure fresh)
          let us ← materialize consing view rest
          pure ((gindexBits g, n) :: us)

/-- The root, and the box with its writes made. -/
def hashTreeRootCached (t : TreeBacked s) : Prog (ByteArray × TreeBacked s) := do
  let base ← t.treeBase.get
  let (root, cachedTree) ← (if t.pending.isEmpty then base.merkleRootWithCache hasher
    else do
      let updates ← materialize t.consing t.view t.pending.toList
      if updates.isEmpty then base.merkleRootWithCache hasher
      else base.commitAndHash hasher conser t.consing updates)
  pure (root, { t with treeBase := .forced cachedTree, pending := ∅ })

def serialize (t : TreeBacked s) : ByteArray := s.serialize t.view

end TreeBacked

/-- The write `sszUpdate` records for a path. -/
def closure {u : SSZType} (p : Path s u) : PendingWrite s := fun view =>
  (p.part view).map fun w => Node.ofShape hasher w.1 w.2

theorem isSome_closure {u : SSZType} {p : Path s u} {x : s.interp} :
    (closure p x).isSome = true ↔ p.Live x := by
  rw [closure, Option.isSome_map]

/-! ## The coupling of view and tree -/

variable {σ κ : Type} {host : Host σ κ} {legal : Prop} {D : Shape ByteArray → Prop}

/-- A recorded write that is not void in `x` leads through `p`. -/
def Dirty (pending : Std.TreeMap Nat (PendingWrite s)) (x : s.interp) (p : List Bool) : Prop :=
  ∃ (u : SSZType) (q : Path s u), q.Addressed ∧ q.bits = p ∧
    pending[gindexOfBits p]? = some (closure q) ∧ q.Live x

/-- The box stands for `x`: its tree is that of `x` but for the writes it has recorded. -/
structure Coupled (host : Host σ κ) (legal : Prop) (D : Shape ByteArray → Prop) (consing : Bool)
    (t : TreeBacked s) (x : s.interp) : Prop where
  view : t.view = x
  consing : t.consing = consing
  recorded : ∀ g d, t.pending[g]? = some d →
    ∃ (u : SSZType) (q : Path s u), q.Addressed ∧ gindexOfBits q.bits = g ∧ closure q = d
  base : ∃ b, t.treeBase.get.Meets (contract host legal D)
      (fun n => n.Coherent ∧ n.bare = b) ∧ AgreeOff (Dirty t.pending x) b (tree s x)

theorem closed_sub (closed : Closed D) {t : Shape ByteArray} {p : List Bool} {u : Shape ByteArray}
    (hD : D t) (hsub : t.sub p = some u) : D u := by
  induction p generalizing t with
  | nil =>
      rw [sub_nil] at hsub
      cases hsub
      exact hD
  | cons d p ih =>
      cases t with
      | leaf b => exact nomatch hsub
      | pair l r =>
          cases d with
          | false => exact ih (closed l r hD).1 hsub
          | true => exact ih (closed l r hD).2 hsub

/-- A built tree, consed where the box says so. -/
theorem consed_meets {consing : Bool} {t : Shape ByteArray} {fresh : Node}
    (hfresh : Built t fresh) (known : Known D consing t) :
    (if consing then fresh.consTree conser else pure fresh : Prog Node).Meets
      (contract host legal D) (Built t) := by
  cases consing with
  | false => exact hfresh
  | true =>
      refine (consTree_meets (known rfl).1 hfresh.coherent ?_).mono fun n hn => hfresh.of_stands hn
      rw [hfresh.bare]
      exact (known rfl).2

theorem ofValue_coupled {consing : Bool} {x : s.interp} (hstore : legal → Storable s x)
    (known : Known D consing (tree s x)) :
    Coupled host legal D consing (TreeBacked.ofValue x consing) x := by
  refine ⟨rfl, rfl, ?_, tree s x, ?_, AgreeOff.refl _ _⟩
  · intro g d h
    rw [TreeBacked.ofValue, Std.TreeMap.getElem?_emptyc] at h
    exact nomatch h
  · refine (ofShape_meets s x hstore).bind fun fresh hfresh => ?_
    exact (consed_meets hfresh known).mono fun n hn => ⟨hn.coherent, hn.bare⟩

/-! ## Recording a write -/

/-- The write goes to the node of `q`, and takes away only parts below it. -/
structure Stepped {u : SSZType} (q : Path s u) (x x' : s.interp) : Prop where
  wrote : Wrote q x x'
  shadows : ∀ {v : SSZType} (r : Path s v), r.Live x → ¬ r.Live x' → q.bits <+: r.bits

theorem write_stepped {u : SSZType} {q : Path s u} (dflt : Defaults) (y : u.interp) (x : s.interp)
    (ha : q.Addressed) : Stepped q x (q.write dflt y x) :=
  ⟨q.write_wrote y x ha, fun r hr hdead => q.shadows r y x ha hr hdead⟩

/-- The whole view is replaced. -/
theorem here_stepped (x x' : s.interp) : Stepped (Path.here : Path s s) x x' := by
  have hbits : (Path.here : Path s s).bits = [] := by rw [Path.bits]
  refine ⟨Wrote.of_nil hbits live_here, fun r _ _ => ?_⟩
  rw [hbits]
  exact List.nil_prefix

theorem pending_insert {pending : Std.TreeMap Nat (PendingWrite s)} {p q : List Bool}
    {d : PendingWrite s} (hne : p ≠ q) :
    (pending.insert (gindexOfBits q) d)[gindexOfBits p]? = pending[gindexOfBits p]? := by
  rw [Std.TreeMap.getElem?_insert, if_neg]
  rw [compare_eq_iff_eq]
  exact fun h => hne (gindexOfBits_inj h).symm

theorem Coupled.write {consing : Bool} {t : TreeBacked s} {x x' : s.interp}
    (h : Coupled host legal D consing t x) {u : SSZType} {q : Path s u} (ha : q.Addressed)
    (hstep : Stepped q x x') :
    Coupled host legal D consing (t.addPending (gindexOfBits q.bits) (closure q) x') x' := by
  obtain ⟨b, hget, hagree⟩ := h.base
  have hself : ∀ d : PendingWrite s,
      (t.pending.insert (gindexOfBits q.bits) d)[gindexOfBits q.bits]? = some d :=
    fun d => Std.TreeMap.getElem?_insert_self
  refine ⟨rfl, h.consing, ?_, b, hget, ?_⟩
  · intro g d hd
    by_cases hg : g = gindexOfBits q.bits
    · subst hg
      have hd := (hself (closure q)).symm.trans hd
      exact ⟨u, q, ha, rfl, Option.some.inj hd⟩
    · refine h.recorded g d ?_
      rw [TreeBacked.addPending, Std.TreeMap.getElem?_insert, if_neg] at hd
      · exact hd
      · rw [compare_eq_iff_eq]
        exact fun h => hg h.symm
  · have hkeep : ∀ p, p ≠ q.bits → Dirty t.pending x p →
        (∀ {v : SSZType} (r : Path s v), r.bits = p → r.Live x → r.Live x') →
        Dirty (t.pending.insert (gindexOfBits q.bits) (closure q)) x' p := by
      rintro p hne ⟨v, r, hr, rfl, hrec, hlive⟩ hstill
      exact ⟨v, r, hr, rfl, (pending_insert hne).trans hrec, hstill r rfl hlive⟩
    cases hstep.wrote with
    | void dead same =>
        subst same
        refine hagree.mono fun p hp => hkeep p ?_ hp fun r _ hr => hr
        rintro rfl
        obtain ⟨v, r, hr, hbits, -, hlive⟩ := hp
        exact dead (q.live_of_bits_eq r x' ha hr hbits.symm hlive)
    | done live live' agree =>
        have hnew : Dirty (t.pending.insert (gindexOfBits q.bits) (closure q)) x' q.bits :=
          ⟨u, q, ha, rfl, hself _, live'⟩
        refine (hagree.trans agree).cover ?_
        rintro p (hp | rfl)
        · by_cases hpre : q.bits <+: p
          · exact ⟨q.bits, hnew, hpre⟩
          · refine ⟨p, hkeep p ?_ hp ?_, List.prefix_refl p⟩
            · rintro rfl
              exact hpre (List.prefix_refl _)
            · rintro v r rfl hlive
              by_contra hdead
              exact hpre (hstep.shadows r hlive hdead)
        · exact ⟨q.bits, hnew, List.prefix_refl _⟩

/-! ## Reading the root -/

theorem Known.sub {consing : Bool} {t u : Shape ByteArray} {p : List Bool}
    (h : Known D consing t) (hsub : t.sub p = some u) : Known D consing u :=
  fun hc => ⟨(h hc).1, closed_sub (h hc).1 (h hc).2 hsub⟩

/-- What a read puts in place for these writes: the trees of the parts that are there. -/
def putInPlace (x : s.interp) (ps : List ((u : SSZType) × Path s u)) :
    List (List Bool × Shape ByteArray) :=
  ps.filterMap fun p => (p.2.part x).map fun w => (p.2.bits, tree w.1 w.2)

theorem mem_putInPlace {x : s.interp} {ps : List ((u : SSZType) × Path s u)} {p : List Bool}
    {t : Shape ByteArray} : (p, t) ∈ putInPlace x ps ↔
    ∃ q ∈ ps, q.2.bits = p ∧ ∃ w, q.2.part x = some w ∧ tree w.1 w.2 = t := by
  rw [putInPlace, List.mem_filterMap]
  refine exists_congr fun q => and_congr_right fun _ => ?_
  cases q.2.part x with
  | none => simp
  | some w => simp

/-- Every write whose part is there is built, in the order of the record. -/
theorem materialize_meets {consing : Bool} {x : s.interp} (hstore : legal → Storable s x)
    {ps : List ((u : SSZType) × Path s u)}
    (known : ∀ u ∈ putInPlace x ps, Known D consing u.2) :
    (TreeBacked.materialize consing x (ps.map fun p => (gindexOfBits p.2.bits, closure p.2))).Meets
      (contract host legal D) fun us =>
        (∀ u ∈ us, u.2.Coherent) ∧ Node.bareWrites us = putInPlace x ps := by
  induction ps with
  | nil => exact ⟨fun _ h => absurd h List.not_mem_nil, rfl⟩
  | cons p ps ih =>
      simp only [List.map_cons, TreeBacked.materialize]
      cases hpart : p.2.part x with
      | none =>
          have hvoid : closure p.2 x = none := by rw [closure, hpart, Option.map_none]
          have hskip : putInPlace x (p :: ps) = putInPlace x ps :=
            List.filterMap_cons_none (by rw [hpart, Option.map_none])
          rw [hskip] at known ⊢
          rw [hvoid]
          exact ih known
      | some w =>
          have hbuild : closure p.2 x = some (Node.ofShape hasher w.1 w.2) := by
            rw [closure, hpart, Option.map_some]
          have hput : putInPlace x (p :: ps) = (p.2.bits, tree w.1 w.2) :: putInPlace x ps :=
            List.filterMap_cons_some (by rw [hpart, Option.map_some])
          rw [hput, List.forall_mem_cons] at known
          rw [hbuild, hput]
          refine (ofShape_meets w.1 w.2 fun hlegal =>
            p.2.storable_part hpart (hstore hlegal)).bind fun fresh hfresh => ?_
          refine (consed_meets hfresh known.1).bind fun n hn => ?_
          refine (ih known.2).bind ?_
          rintro us ⟨hcoherent, hus⟩
          refine ⟨List.forall_mem_cons.mpr ⟨hn.coherent, hcoherent⟩, ?_⟩
          rw [gindexBits_gindexOfBits, Node.bareWrites, List.map_cons, ← Node.bareWrites, hus,
            hn.bare]

theorem commitAndHash_nil (consing : Bool) (n : Node) :
    n.commitAndHash hasher conser consing [] = n.merkleRootWithCache hasher := by
  cases n <;> rfl

/-- A box whose writes are all made, with its root in the slot. -/
structure Settled (t : TreeBacked s) (r : ByteArray) : Prop where
  pending : t.pending = ∅
  base : ∃ n, t.treeBase = .forced n ∧ n.cached = some r

/-- Whatever is on record, the read is one walk with the writes that are made. -/
theorem hashTreeRootCached_eq (t : TreeBacked s) : t.hashTreeRootCached = (do
    let base ← t.treeBase.get
    let updates ← TreeBacked.materialize t.consing t.view t.pending.toList
    let (root, cachedTree) ← base.commitAndHash hasher conser t.consing updates
    pure (root, { t with treeBase := .forced cachedTree, pending := ∅ })) := by
  have hone : ∀ (base : Node) (us : List (List Bool × Node)),
      (if us.isEmpty then base.merkleRootWithCache hasher
        else base.commitAndHash hasher conser t.consing us) =
      base.commitAndHash hasher conser t.consing us := by
    intro base us
    cases us with
    | nil => exact (commitAndHash_nil t.consing base).symm
    | cons u us => rfl
  rw [TreeBacked.hashTreeRootCached]
  refine bind_congr fun base => ?_
  split
  case isTrue hempty =>
    have hnone : t.pending.toList = [] := by
      rwa [← List.isEmpty_iff, Std.TreeMap.isEmpty_toList]
    rw [hnone, TreeBacked.materialize, pure_bind, commitAndHash_nil]
  case isFalse =>
    rw [bind_assoc]
    refine bind_congr fun us => ?_
    rw [hone]

/-- A read makes the writes on record whose parts are there, and answers the root of the tree
that leaves. -/
theorem hashTreeRootCached_puts {t : TreeBacked s} {b made : Shape ByteArray}
    {ps : List ((u : SSZType) × Path s u)}
    (hget : t.treeBase.get.Meets (contract host legal D) fun n => n.Coherent ∧ n.bare = b)
    (hrecord : t.pending.toList = ps.map fun p => (gindexOfBits p.2.bits, closure p.2))
    (hmade : b.graftMany (putInPlace t.view ps) = made)
    (hstore : legal → Storable s t.view) (handy : legal → Handy made)
    (known : Known D t.consing made) (parts : ∀ u ∈ putInPlace t.view ps, Known D t.consing u.2) :
    t.hashTreeRootCached.Meets (contract host legal D) fun r => r.1 = root made ∧
      ∃ n, Built made n ∧ r.2 = { t with treeBase := .forced n, pending := ∅ } := by
  rw [hashTreeRootCached_eq, hrecord]
  refine hget.bind ?_
  rintro base ⟨hbase, rfl⟩
  refine (materialize_meets hstore parts).bind ?_
  rintro us ⟨hcoherent, hus⟩
  have hbare : (base.setManyAt us).bare = made := by rw [Node.bare_setManyAt, hus, hmade]
  rw [← hbare] at handy known
  refine (commitAndHash_meets hbase hcoherent handy known).bind ?_
  rintro ⟨_, n⟩ ⟨rfl, hn⟩
  rw [hbare] at hn ⊢
  exact ⟨rfl, n, hn, rfl⟩

/-- What is on record, as the paths it was recorded for. -/
theorem exists_paths {pending : Std.TreeMap Nat (PendingWrite s)}
    {P : ((u : SSZType) × Path s u) → Prop}
    (h : ∀ g d, pending[g]? = some d →
      ∃ p, P p ∧ gindexOfBits p.2.bits = g ∧ closure p.2 = d) :
    ∃ ps : List ((u : SSZType) × Path s u),
      pending.toList = ps.map (fun p => (gindexOfBits p.2.bits, closure p.2)) ∧
        (∀ p ∈ ps, P p) ∧ ∀ g d, pending[g]? = some d →
          ∃ p ∈ ps, gindexOfBits p.2.bits = g ∧ closure p.2 = d := by
  have hrange : pending.toList ∈ Set.range (List.map fun p : Subtype P =>
      (gindexOfBits p.1.2.bits, closure p.1.2)) := by
    rw [Set.range_list_map]
    intro e he
    obtain ⟨p, hp, hg, hd⟩ :=
      h e.1 e.2 (Std.TreeMap.mem_toList_iff_getElem?_eq_some.mp he)
    exact ⟨⟨p, hp⟩, Prod.ext hg hd⟩
  obtain ⟨ps, hps⟩ := hrange
  have hmap : pending.toList =
      (ps.map Subtype.val).map fun p => (gindexOfBits p.2.bits, closure p.2) := by
    rw [← hps, List.map_map]
    rfl
  refine ⟨ps.map Subtype.val, hmap, ?_, ?_⟩
  · intro p hp
    obtain ⟨q, -, rfl⟩ := List.mem_map.mp hp
    exact q.2
  · intro g d hd
    have he : (g, d) ∈ pending.toList := Std.TreeMap.mem_toList_iff_getElem?_eq_some.mpr hd
    rw [hmap] at he
    obtain ⟨p, hp, heq⟩ := List.mem_map.mp he
    exact ⟨p, hp, (Prod.mk.inj heq).1, (Prod.mk.inj heq).2⟩

/-- The box answers the root of its view. -/
theorem hashTreeRootCached_meets {consing : Bool} {t : TreeBacked s} {x : s.interp}
    (h : Coupled host legal D consing t x) (hstore : legal → Storable s x)
    (known : Known D consing (tree s x)) :
    t.hashTreeRootCached.Meets (contract host legal D) fun p => p.1 = root (tree s x) ∧
      Coupled host legal D consing p.2 x ∧ Settled p.2 (root (tree s x)) := by
  obtain ⟨b, hget, hagree⟩ := h.base
  obtain rfl := h.view
  obtain rfl := h.consing
  obtain ⟨ps, hrecord, haddressed, hall⟩ :=
    exists_paths (P := fun p => p.2.Addressed) fun g d hd => by
      obtain ⟨u, q, hq⟩ := h.recorded g d hd
      exact ⟨⟨u, q⟩, hq⟩
  have hread : ∀ p u, (p, u) ∈ putInPlace t.view ps → (tree s t.view).sub p = some u := by
    intro p u hu
    obtain ⟨q, hq, rfl, w, hw, rfl⟩ := mem_putInPlace.mp hu
    exact q.2.sub_bits (haddressed q hq) hw
  have hmade : b.graftMany (putInPlace t.view ps) = tree s t.view := by
    refine graftMany_of_agree (hagree.mono ?_) hread
    rintro p ⟨u, q, -, rfl, hrec, hlive⟩
    obtain ⟨q', hq', hg, hclosure⟩ := hall _ _ hrec
    have hlive' : q'.2.Live t.view := by
      rw [← isSome_closure, hclosure, isSome_closure]
      exact hlive
    obtain ⟨w, hw⟩ := Option.isSome_iff_exists.mp hlive'
    exact ⟨tree w.1 w.2, mem_putInPlace.mpr ⟨q', hq', gindexOfBits_inj hg, w, hw, rfl⟩⟩
  refine (hashTreeRootCached_puts hget hrecord hmade hstore
    (fun hlegal => handy_tree s _ (hstore hlegal)) known
    fun u hu => known.sub (hread u.1 u.2 hu)).mono ?_
  rintro ⟨_, t'⟩ ⟨rfl, n, hn, rfl⟩
  refine ⟨rfl, ⟨rfl, rfl, ?_, tree s t.view, ⟨hn.coherent, hn.bare⟩, AgreeOff.refl _ _⟩, rfl,
    n, rfl, hn.cached⟩
  intro g d hd
  rw [Std.TreeMap.getElem?_emptyc] at hd
  exact nomatch hd

/-- A settled box answers without a call, and stays as it is. -/
theorem Settled.read {t : TreeBacked s} {r : ByteArray} (h : Settled t r) :
    t.hashTreeRootCached = pure (r, t) := by
  obtain ⟨hpending, n, hbase, hslot⟩ := h
  obtain ⟨view, treeBase, pending, consing⟩ := t
  obtain rfl : pending = ∅ := hpending
  obtain rfl : treeBase = .forced n := hbase
  have hread : n.merkleRootWithCache hasher = pure (r, n) := by
    cases n with
    | leaf b =>
        cases hslot
        rfl
    | pair l r' c =>
        cases hslot
        rfl
  rw [TreeBacked.hashTreeRootCached, TreeBase.get, pure_bind, if_pos Std.TreeMap.isEmpty_emptyc,
    hread, pure_bind]

/-- Two flags: a pair over two leaves. -/
abbrev flags : SSZType := .container [.bool, .bool]

theorem tree_flags (f g : Bool) : tree flags (f, g, ⟨⟩) =
    .pair (.leaf (boolRoot f)) (.leaf (boolRoot g)) := by
  rw [tree, fieldTrees, fieldTrees, fieldTrees, tree, tree]
  rfl

theorem storable_flags (x : flags.interp) : Storable flags x := by
  rw [Storable, StorableFields, StorableFields, StorableFields, Storable, Storable]
  refine ⟨?_, trivial, trivial, trivial⟩
  unfold Roomy
  decide

/-- The first of the flags. -/
abbrev firstFlag : Path flags .bool := .field (.head .here)

theorem firstFlag_addressed : firstFlag.Addressed := by
  rw [Path.Addressed, FieldPath.Addressed, Path.Addressed]
  trivial

end HazmatSha256.Cache
