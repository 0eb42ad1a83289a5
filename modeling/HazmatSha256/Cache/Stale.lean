import HazmatSha256.Cache.PathLaws
set_option autoImplicit false

/-!
# Cache: where a view and its tree part

What the root read answers after updates of any kind.  A write is on record under the node it
goes to, so of the writes to one node only the last is; if its part is not there, nothing is made
at that node, whatever the writes before it did to the view.  And what is made is made where
`walkPath` says, which is not where a field of a progressive container stands.
-/

namespace HazmatSha256.Cache

open Foundation Shape Boxed Isal Evp Shim Merkle Ssz

variable {dflt : Defaults} {s : SSZType}

/-! ## Updates since the last read -/

/-- One update after another; the first that is refused ends it. -/
def TreeBacked.sszUpdates (dflt : Defaults) :
    TreeBacked s → List (List (Clause s)) → Except IndexError (TreeBacked s)
  | t, [] => .ok t
  | t, cs :: rest => (t.sszUpdate dflt cs).bind fun t' => t'.sszUpdates dflt rest

/-- What the clauses put on record, one after another. -/
def record (pending : Std.TreeMap Nat (PendingWrite s)) (cs : List (Clause s)) :
    Std.TreeMap Nat (PendingWrite s) :=
  cs.foldl (fun acc c => acc.insert (gindexOfBits c.path.bits) (closure c.path)) pending

theorem sszUpdate_eq_ok {t t' : TreeBacked s} {cs : List (Clause s)}
    (plain : ∀ active fs, s ≠ .progressiveContainer active fs)
    (h : t.sszUpdate dflt cs = .ok t') :
    t' = { t with view := viewChain dflt cs t.view, pending := record t.pending cs } := by
  have hwrites : pendingWrites s cs = cs.map fun c => (c.path.bits, closure c.path) := by
    cases s with
    | progressiveContainer active fs => exact absurd rfl (plain active fs)
    | _ => rfl
  rw [TreeBacked.sszUpdate] at h
  cases hguard : indexGuard dflt cs t.view with
  | error e =>
      rw [hguard] at h
      cases h
  | ok _ =>
      rw [hguard] at h
      obtain rfl := Except.ok.inj h
      rw [hwrites, TreeBacked.addPendingMany, List.foldl_map]
      rfl

theorem sszUpdates_eq_ok (plain : ∀ active fs, s ≠ .progressiveContainer active fs) :
    ∀ {css : List (List (Clause s))} {t t' : TreeBacked s}, t.sszUpdates dflt css = .ok t' →
    t' = { t with
      view := viewChain dflt css.flatten t.view
      pending := record t.pending css.flatten } := by
  intro css
  induction css with
  | nil =>
      intro t t' h
      exact (Except.ok.inj h).symm
  | cons cs rest ih =>
      intro t t' h
      rw [TreeBacked.sszUpdates] at h
      cases hone : t.sszUpdate dflt cs with
      | error e =>
          rw [hone] at h
          exact nomatch h
      | ok t₁ =>
          rw [hone] at h
          obtain rfl := sszUpdate_eq_ok plain hone
          rw [ih h, List.flatten_cons]
          simp only [viewChain, record, List.foldl_append]

/-! ## What is left on record -/

/-- The clauses that no later one has replaced: of those to one node, the last. -/
def onRecord : List (Clause s) → List (Clause s)
  | [] => []
  | c :: cs => if ∃ d ∈ cs, d.path.bits = c.path.bits then onRecord cs else c :: onRecord cs

theorem mem_of_mem_onRecord {c : Clause s} : ∀ {cs : List (Clause s)}, c ∈ onRecord cs →
    c ∈ cs := by
  intro cs
  induction cs with
  | nil => exact id
  | cons d cs ih =>
      intro h
      rw [onRecord] at h
      split at h
      · exact List.mem_cons_of_mem d (ih h)
      · rcases List.mem_cons.mp h with rfl | h
        · exact List.mem_cons_self
        · exact List.mem_cons_of_mem d (ih h)

theorem onRecord_unique {c d : Clause s} : ∀ {cs : List (Clause s)}, c ∈ onRecord cs →
    d ∈ onRecord cs → c.path.bits = d.path.bits → c = d := by
  intro cs
  induction cs with
  | nil => exact fun h => absurd h List.not_mem_nil
  | cons e cs ih =>
      intro hc hd hbits
      rw [onRecord] at hc hd
      split at hc
      next hlater =>
        rw [if_pos hlater] at hd
        exact ih hc hd hbits
      next hlast =>
        rw [if_neg hlast] at hd
        rcases List.mem_cons.mp hc with heq | hc'
        · rcases List.mem_cons.mp hd with heq' | hd'
          · rw [heq, heq']
          · exact absurd ⟨d, mem_of_mem_onRecord hd', by rw [← hbits, heq]⟩ hlast
        · rcases List.mem_cons.mp hd with heq' | hd'
          · exact absurd ⟨c, mem_of_mem_onRecord hc', by rw [hbits, heq']⟩ hlast
          · exact ih hc' hd' hbits

theorem getElem?_record {g : Nat} {d : PendingWrite s} : ∀ {cs : List (Clause s)}
    {pending : Std.TreeMap Nat (PendingWrite s)}, (record pending cs)[g]? = some d ↔
    (∃ c ∈ onRecord cs, gindexOfBits c.path.bits = g ∧ closure c.path = d) ∨
      (¬ ∃ c ∈ cs, gindexOfBits c.path.bits = g) ∧ pending[g]? = some d := by
  intro cs
  induction cs with
  | nil => simp [record, onRecord]
  | cons c cs ih =>
      intro pending
      have hstep : record pending (c :: cs) =
          record (pending.insert (gindexOfBits c.path.bits) (closure c.path)) cs := rfl
      rw [hstep, ih, Std.TreeMap.getElem?_insert, onRecord]
      by_cases hlater : ∃ e ∈ cs, e.path.bits = c.path.bits
      · rw [if_pos hlater]
        obtain ⟨e, he, hbits⟩ := hlater
        by_cases hg : gindexOfBits c.path.bits = g
        · have hin : ∃ e ∈ cs, gindexOfBits e.path.bits = g := ⟨e, he, by rw [hbits, hg]⟩
          simp [hin, hg]
        · simp [hg]
      · rw [if_neg hlater]
        by_cases hg : gindexOfBits c.path.bits = g
        · subst hg
          have hout : ¬ ∃ e ∈ cs, gindexOfBits e.path.bits = gindexOfBits c.path.bits :=
            fun ⟨e, he, heq⟩ => hlater ⟨e, he, gindexOfBits_inj heq⟩
          have hout' : ¬ ∃ e ∈ onRecord cs,
              gindexOfBits e.path.bits = gindexOfBits c.path.bits ∧ closure e.path = d :=
            fun ⟨e, he, heq, _⟩ => hout ⟨e, mem_of_mem_onRecord he, heq⟩
          simp [hout, hout']
        · simp [hg]

/-! ## The tree whose root is read -/

/-- What a read puts in place for these clauses in the view `x`. -/
def survivors (x : s.interp) (cs : List (Clause s)) : List (List Bool × Shape ByteArray) :=
  putInPlace x ((onRecord cs).map fun c => ⟨c.part, c.path⟩)

/-- The tree `b` with that in place. -/
def made (b : Shape ByteArray) (x : s.interp) (cs : List (Clause s)) : Shape ByteArray :=
  b.graftMany (survivors x cs)

theorem mem_survivors {x : s.interp} {cs : List (Clause s)} {p : List Bool}
    {t : Shape ByteArray} : (p, t) ∈ survivors x cs ↔
    ∃ c ∈ onRecord cs, c.path.bits = p ∧ ∃ w, c.path.part x = some w ∧ tree w.1 w.2 = t := by
  rw [survivors, mem_putInPlace]
  simp

theorem survivors_functional (x : s.interp) (cs : List (Clause s)) :
    Functional (survivors x cs) := by
  intro p t t' h h'
  obtain ⟨c, hc, rfl, w, hw, rfl⟩ := mem_survivors.mp h
  obtain ⟨d, hd, hbits, w', hw', rfl⟩ := mem_survivors.mp h'
  obtain rfl := onRecord_unique hd hc hbits
  rw [hw] at hw'
  cases hw'
  rfl

/-- Where no part on record is there, nothing is put in place. -/
theorem made_of_dead {b : Shape ByteArray} {x : s.interp} {cs : List (Clause s)}
    (dead : ∀ c ∈ onRecord cs, ¬ c.path.Live x) : made b x cs = b := by
  have hnone : survivors x cs = [] := by
    rw [survivors, putInPlace, List.filterMap_eq_nil_iff]
    intro p hp
    obtain ⟨c, hc, rfl⟩ := List.mem_map.mp hp
    rw [Option.map_eq_none_iff]
    exact Option.not_isSome_iff_eq_none.mp (dead c hc)
  rw [made, hnone, graftMany_nil]

theorem onRecord_concat (c : Clause s) (cs : List (Clause s)) : onRecord (cs ++ [c]) =
    onRecord (cs.filter fun d => d.path.bits ≠ c.path.bits) ++ [c] := by
  induction cs with
  | nil => simp [onRecord]
  | cons d cs ih =>
      rw [List.cons_append, onRecord, ih]
      by_cases hd : d.path.bits = c.path.bits
      · have hlater : ∃ e ∈ cs ++ [c], e.path.bits = d.path.bits :=
          ⟨c, List.mem_append_right cs List.mem_cons_self, hd.symm⟩
        rw [if_pos hlater, List.filter_cons_of_neg (by simp [hd])]
      · have hsame : (∃ e ∈ cs ++ [c], e.path.bits = d.path.bits) ↔
            ∃ e ∈ cs.filter fun e => e.path.bits ≠ c.path.bits, e.path.bits = d.path.bits := by
          grind
        rw [List.filter_cons_of_pos (by simp [hd]), onRecord]
        simp only [hsame]
        split <;> rfl

/-- A last clause whose part is not there leaves the view as it is, and takes the clauses before
it at its node off the record. -/
theorem made_concat_of_dead {b : Shape ByteArray} {x₀ : s.interp} {cs : List (Clause s)}
    {c : Clause s} (dead : ¬ c.path.Live (viewChain dflt cs x₀)) :
    viewChain dflt (cs ++ [c]) x₀ = viewChain dflt cs x₀ ∧
      made b (viewChain dflt cs x₀) (cs ++ [c]) =
        made b (viewChain dflt cs x₀) (cs.filter fun d => d.path.bits ≠ c.path.bits) := by
  constructor
  · rw [viewChain, List.foldl_append]
    exact c.path.write_of_dead c.value dead
  · have hnone : c.path.part (viewChain dflt cs x₀) = none :=
      Option.not_isSome_iff_eq_none.mp dead
    rw [made, made, survivors, survivors, onRecord_concat, List.map_append, putInPlace,
      List.filterMap_append, List.map_singleton, List.filterMap_cons_none (by rw [hnone]; rfl),
      List.filterMap_nil, List.append_nil]
    rfl

/-! ## When that is the tree of the view -/

mutual

/-- No field of a progressive container on the way. -/
def Path.Classic : {s u : SSZType} → Path s u → Prop
  | _, _, .here => True
  | _, _, .field p => p.Classic
  | _, _, .progressiveField _ => False
  | _, _, .vectorAt _ _ p => p.Classic
  | _, _, .listAt _ _ p => p.Classic
  | _, _, .progressiveListAt _ _ => True
  | _, _, .progressiveBitAt _ _ => True

def FieldPath.Classic : {fs : List SSZType} → {u : SSZType} → FieldPath fs u → Prop
  | _, _, .head p => p.Classic
  | _, _, .tail p => p.Classic

end

mutual

/-- A part that is there is below every declared length. -/
theorem Path.addressed_of_live : ∀ {s u : SSZType} (p : Path s u) (x : s.interp), p.Classic →
    p.Live x → p.Addressed
  | _, _, .here, _, _, _ => by
      rw [Path.Addressed]
      trivial
  | _, _, .field p, x, hp, h => by
      rw [Path.Classic] at hp
      rw [Path.Addressed]
      exact p.addressed_of_live x hp ((live_field p x).mp h)
  | _, _, .progressiveField _, _, hp, _ => by
      rw [Path.Classic] at hp
      exact hp.elim
  | _, _, @Path.vectorAt t _ _ _ _ p, v, hp, h => by
      rw [Path.Classic] at hp
      rw [Path.Addressed]
      by_cases ht : t.isBasicType = true
      · exact .inl ht
      · obtain ⟨hi, h⟩ := (live_vectorAt ht p v).mp h
        exact .inr ⟨hi, p.addressed_of_live _ hp h⟩
  | _, _, @Path.listAt t _ _ _ _ p, xs, hp, h => by
      rw [Path.Classic] at hp
      rw [Path.Addressed]
      by_cases ht : t.isBasicType = true
      · exact .inl ht
      · obtain ⟨hi, h⟩ := (live_listAt ht p xs).mp h
        exact .inr ⟨Nat.lt_of_lt_of_le hi xs.property, p.addressed_of_live _ hp h⟩
  | _, _, .progressiveListAt _ _, _, _, _ => by
      rw [Path.Addressed]
      trivial
  | _, _, .progressiveBitAt _ _, _, _, _ => by
      rw [Path.Addressed]
      trivial

theorem FieldPath.addressed_of_live : ∀ {fs : List SSZType} {u : SSZType} (p : FieldPath fs u)
    (vs : SSZType.interpFields fs), p.Classic → p.Live vs → p.Addressed
  | _, _, .head p, vs, hp, h => by
      rw [FieldPath.Classic] at hp
      rw [FieldPath.Addressed]
      exact p.addressed_of_live vs.1 hp ((live_head p vs).mp h)
  | _, _, .tail p, vs, hp, h => by
      rw [FieldPath.Classic] at hp
      rw [FieldPath.Addressed]
      exact p.addressed_of_live vs.2 hp ((live_tail p vs).mp h)

end

/-- Every part is read off the tree of the view. -/
theorem sub_of_mem_survivors {x : s.interp} {cs : List (Clause s)}
    (classic : ∀ c ∈ cs, c.path.Classic) {p : List Bool} {t : Shape ByteArray}
    (h : (p, t) ∈ survivors x cs) : (tree s x).sub p = some t := by
  obtain ⟨c, hc, rfl, w, hw, rfl⟩ := mem_survivors.mp h
  have hlive : c.path.Live x := by
    rw [Path.Live, hw]
    rfl
  exact c.path.sub_bits
    (c.path.addressed_of_live x (classic c (mem_of_mem_onRecord hc)) hlive) hw

/-- The nodes at which something is put in place. -/
def Kept (x : s.interp) (cs : List (Clause s)) (p : List Bool) : Prop :=
  ∃ c ∈ onRecord cs, c.path.bits = p ∧ c.path.Live x

theorem kept_iff {x : s.interp} {cs : List (Clause s)} {p : List Bool} :
    Kept x cs p ↔ ∃ t, (p, t) ∈ survivors x cs := by
  constructor
  · intro h
    rcases h with ⟨c, hc, rfl, hlive⟩
    obtain ⟨w, hw⟩ := Option.isSome_iff_exists.mp hlive
    exact ⟨_, mem_survivors.mpr ⟨c, hc, rfl, w, hw, rfl⟩⟩
  · intro h
    rcases h with ⟨t, ht⟩
    obtain ⟨c, hc, rfl, w, hw, rfl⟩ := mem_survivors.mp ht
    exact ⟨c, hc, rfl, Option.isSome_iff_exists.mpr ⟨w, hw⟩⟩

/-- The tree is that of the view exactly where `b` differs from that nowhere but at these
nodes. -/
theorem made_eq_iff {b : Shape ByteArray} {x : s.interp} {cs : List (Clause s)}
    (classic : ∀ c ∈ cs, c.path.Classic) :
    made b x cs = tree s x ↔ AgreeOff (Kept x cs) b (tree s x) := by
  have hkept : Kept x cs = fun p => ∃ t, (p, t) ∈ survivors x cs :=
    funext fun p => propext kept_iff
  rw [hkept]
  constructor
  · intro h
    rw [← h]
    exact agreeOff_graftMany _ _
  · exact fun h => graftMany_of_agree h fun p t => sub_of_mem_survivors classic

/-! ## The read -/

variable {σ κ : Type} {host : Host σ κ} {legal : Prop} {D : Shape ByteArray → Prop}

/-- Nothing is on record, and the tree is `b`: a box that is new or was read last. -/
structure Clean (host : Host σ κ) (legal : Prop) (D : Shape ByteArray → Prop) (t : TreeBacked s)
    (b : Shape ByteArray) : Prop where
  pending : t.pending = ∅
  base : t.treeBase.get.Meets (contract host legal D) fun n => n.Coherent ∧ n.bare = b

theorem Coupled.clean {consing : Bool} {t : TreeBacked s} {x : s.interp}
    (h : Coupled host legal D consing t x) (hempty : t.pending = ∅) :
    Clean host legal D t (tree s x) := by
  obtain ⟨b, hget, hagree⟩ := h.base
  have hsame : b = tree s x := by
    refine hagree.eq_of_empty ?_
    intro p hp
    rcases hp with ⟨u, q, -, -, hrec, -⟩
    rw [hempty, Std.TreeMap.getElem?_emptyc] at hrec
    cases hrec
  rw [← hsame]
  exact ⟨hempty, hget⟩

theorem ofValue_clean {consing : Bool} {x : s.interp} (hstore : legal → Storable s x)
    (known : Known D consing (tree s x)) :
    Clean host legal D (TreeBacked.ofValue x consing) (tree s x) :=
  (ofValue_coupled hstore known).clean rfl

theorem handy_made {b : Shape ByteArray} {x : s.interp} {cs : List (Clause s)} (hb : Handy b)
    (h : Storable s x) : Handy (made b x cs) := by
  refine leaves_graftMany hb ?_
  intro u ht
  rcases u with ⟨p, t⟩
  obtain ⟨c, -, rfl, w, hw, rfl⟩ := mem_survivors.mp ht
  exact handy_tree w.1 w.2 (c.path.storable_part hw h)

/-- The record of some clauses lists the paths of those on record, in the order of their
nodes. -/
theorem record_toList (x : s.interp) (cs : List (Clause s)) :
    ∃ ps : List ((u : SSZType) × Path s u),
      (record ∅ cs).toList = ps.map (fun p => (gindexOfBits p.2.bits, closure p.2)) ∧
      ∀ u, u ∈ survivors x cs ↔ u ∈ putInPlace x ps := by
  obtain ⟨ps, hps, hfrom, hall⟩ :=
    exists_paths (P := fun p => ∃ c ∈ onRecord cs, p = ⟨c.part, c.path⟩) fun g d hd => by
      rcases getElem?_record.mp hd with ⟨c, hc, hg, hclosure⟩ | ⟨-, hnone⟩
      · exact ⟨_, ⟨c, hc, rfl⟩, hg, hclosure⟩
      · rw [Std.TreeMap.getElem?_emptyc] at hnone
        cases hnone
  refine ⟨ps, hps, ?_⟩
  intro u
  rcases u with ⟨p, t⟩
  rw [mem_survivors, mem_putInPlace]
  constructor
  · intro h
    rcases h with ⟨c, hc, hpart⟩
    obtain ⟨q, hq, hg, -⟩ := hall _ _ (getElem?_record.mpr (.inl ⟨c, hc, rfl, rfl⟩))
    obtain ⟨d, hd, rfl⟩ := hfrom q hq
    obtain rfl := onRecord_unique hd hc (gindexOfBits_inj hg)
    exact ⟨_, hq, hpart⟩
  · intro h
    rcases h with ⟨q, hq, hpart⟩
    obtain ⟨c, hc, rfl⟩ := hfrom q hq
    exact ⟨c, hc, hpart⟩

/-- What the read after some updates answers, and the box it leaves. -/
theorem sszUpdates_reads {t t' : TreeBacked s} {b : Shape ByteArray}
    {css : List (List (Clause s))} (clean : Clean host legal D t b)
    (plain : ∀ active fs, s ≠ .progressiveContainer active fs)
    (hupdates : t.sszUpdates dflt css = .ok t') (handy : legal → Handy b)
    (hstore : legal → Storable s t'.view)
    (known : Known D t.consing (made b t'.view css.flatten))
    (parts : ∀ u ∈ survivors t'.view css.flatten, Known D t.consing u.2) :
    t'.hashTreeRootCached.Meets (contract host legal D) fun r =>
      r.1 = root (made b t'.view css.flatten) ∧ r.2.view = t'.view ∧
        Clean host legal D r.2 (made b t'.view css.flatten) := by
  have hupdated := sszUpdates_eq_ok plain hupdates
  have hrecord : t'.pending = record ∅ css.flatten := by rw [hupdated, clean.pending]
  have hget := clean.base
  have hbase : t'.treeBase = t.treeBase := by rw [hupdated]
  have hconsing : t'.consing = t.consing := by rw [hupdated]
  obtain ⟨ps, hps, hsame⟩ := record_toList t'.view css.flatten
  have hmade : b.graftMany (putInPlace t'.view ps) = made b t'.view css.flatten :=
    (graftMany_congr (survivors_functional _ _) hsame).symm
  rw [← hbase] at hget
  rw [← hconsing] at known parts
  rw [← hrecord] at hps
  refine (hashTreeRootCached_puts hget hps hmade hstore
    (fun hlegal => handy_made (handy hlegal) (hstore hlegal)) known
    fun u hu => parts u ((hsame u).mpr hu)).mono ?_
  rintro ⟨_, _⟩ ⟨rfl, n, hn, rfl⟩
  exact ⟨rfl, rfl, rfl, hn.coherent, hn.bare⟩

/-- A list of pairs of flags, and a number. -/
abbrev rowsType : SSZType := .container [.list flags 2, .uintN 8]

abbrev rowsValue (f : Bool) (n : UInt8) : rowsType.interp :=
  (⟨#[(f, false, ⟨⟩)], Nat.le_succ 1⟩, n, ⟨⟩)

abbrev flagClause : Clause rowsType :=
  ⟨.field (.head (.listAt 0 false (.field (.head .here)))), true⟩

abbrev numberClause : Clause rowsType := ⟨.field (.tail (.head .here)), (7 : UInt8)⟩

abbrev rowClause : Clause rowsType := ⟨.field (.head (.listAt 2 false .here)), (true, true, ⟨⟩)⟩

theorem bits_rows : flagClause.path.bits = [false, false, false, false] ∧
    numberClause.path.bits = [true] ∧ rowClause.path.bits = [false, false, false, false] := by
  simp only [Path.bits, FieldPath.bits, FieldPath.index]
  decide

theorem onRecord_rows :
    onRecord [flagClause, numberClause, rowClause] = [numberClause, rowClause] := by
  obtain ⟨hflag, hnumber, hrow⟩ := bits_rows
  simp [onRecord, hflag, hnumber, hrow]

theorem tree_rows (f : Bool) (n : UInt8) : tree rowsType (rowsValue f n) =
    .pair (.pair (.pair (.pair (.leaf (boolRoot f)) (.leaf (boolRoot false))) (.leaf zero32))
      (.leaf (natToChunk 1))) (.leaf (uintRoot 8 n)) := by
  have hlist : ¬ flags.isBasicType = true := Bool.false_ne_true
  have hrow : trees flags [(f, false, ⟨⟩)] =
      [.pair (.leaf (boolRoot f)) (.leaf (boolRoot false))] := by
    rw [trees, trees, tree_flags]
  simp only [tree, fieldTrees, if_neg hlist]
  change perfect [counted (perfect (trees flags [(f, false, ⟨⟩)]) 1) 1, _] 1 = _
  rw [hrow]
  rfl

theorem survivors_rows : survivors (rowsValue true 7) [flagClause, numberClause, rowClause] =
    [([true], .leaf (uintRoot 8 (7 : UInt8)))] := by
  have hnumber : numberClause.path.part (rowsValue true 7) = some ⟨.uintN 8, (7 : UInt8)⟩ := by
    simp only [Path.part, FieldPath.part]
  have hrow : rowClause.path.part (rowsValue true 7) = none := by
    simp only [Path.part, FieldPath.part]
    rfl
  have hput : survivors (rowsValue true 7) [flagClause, numberClause, rowClause] =
      [(numberClause.path.bits, tree (.uintN 8) (7 : UInt8))] := by
    rw [survivors, onRecord_rows, putInPlace, List.map_cons, List.filterMap_cons_some
      (b := (numberClause.path.bits, tree (.uintN 8) (7 : UInt8))) (by rw [hnumber]; rfl),
      List.map_singleton, List.filterMap_cons_none (by rw [hrow]; rfl), List.filterMap_nil]
  rw [hput, bits_rows.2.1, tree]

theorem storable_rows (f : Bool) (n : UInt8) : Storable rowsType (rowsValue f n) := by
  have hroomy : Roomy 2 ∧ Roomy 1 := by
    unfold Roomy
    decide
  have hrow : StorableElems flags [(f, false, ⟨⟩)] := by
    rw [StorableElems, StorableElems]
    exact ⟨storable_flags _, trivial⟩
  rw [Storable, StorableFields, StorableFields, StorableFields, Storable, Storable]
  exact ⟨hroomy.1, ⟨hroomy.2, hrow⟩, trivial, trivial⟩

section Progressive

variable {active : List Bool} {t : SSZType} {gs : List SSZType}

/-- The one field of a progressive container that is itself the first field. -/
abbrev innerField (active : List Bool) (t : SSZType) (gs : List SSZType) :
    Path (.container (.progressiveContainer active [t] :: gs)) t :=
  .field (.head (.progressiveField (.head .here)))

theorem bits_innerField : (innerField active t gs).bits =
    gindexBits (2 ^ chunkDepth (gs.length + 1) + 0) := by
  rw [Path.bits, FieldPath.bits, Path.bits, FieldPath.bits, Path.bits, FieldPath.index,
    FieldPath.index, List.append_nil, List.length_cons, List.length_singleton]
  exact List.append_nil _

/-- The node of the first field stands where the field is, and is replaced by the chunk of the
inner field: what is left is the tree of no value. -/
theorem made_innerField (hbasic : t.isBasicType = true)
    (x₀ x x' : (SSZType.container (.progressiveContainer active [t] :: gs)).interp)
    (y : t.interp) :
    made (tree _ x₀) x [⟨innerField active t gs, y⟩] ≠ tree _ x' := by
  have hplace : ∀ z : (SSZType.container (.progressiveContainer active [t] :: gs)).interp,
      (tree _ z).sub (innerField active t gs).bits = some (tree _ z.1) := by
    intro z
    have hfirst : (fieldTrees (.progressiveContainer active [t] :: gs) z)[0]? =
        some (tree (.progressiveContainer active [t]) z.1) := by
      rw [fieldTrees]
      rfl
    have hsub := sub_perfect (lt_two_pow_chunkDepth (Nat.succ_pos gs.length)) hfirst []
    rw [List.append_nil, sub_nil] at hsub
    rw [bits_innerField, tree]
    exact hsub
  have hpart : (innerField active t gs).part x = some ⟨t, x.1.1⟩ := by
    rw [Path.part, FieldPath.part, Path.part, FieldPath.part, Path.part]
  have hput : survivors x [⟨innerField active t gs, y⟩] =
      [((innerField active t gs).bits, tree t x.1.1)] := by
    rw [survivors, onRecord, if_neg (fun ⟨_, h, _⟩ => List.not_mem_nil h), onRecord,
      List.map_singleton, putInPlace, List.filterMap_cons_some (by rw [hpart, Option.map_some]),
      List.filterMap_nil]
  have hflat : Flat [((innerField active t gs).bits, tree t x.1.1)] := by
    intro u hu v hv _
    rw [List.mem_singleton.mp hu, List.mem_singleton.mp hv]
  have hmade : made (tree _ x₀) x [⟨innerField active t gs, y⟩] =
      (tree _ x₀).graft (innerField active t gs).bits (tree t x.1.1) := by
    rw [made, hput, graftMany_eq_graftEach hflat]
    rfl
  intro heq
  have hat : (made (tree _ x₀) x [⟨innerField active t gs, y⟩]).sub
      (innerField active t gs).bits = (tree _ x').sub (innerField active t gs).bits := by
    rw [heq]
  rw [hmade, sub_graft (hplace x₀), hplace x', tree] at hat
  cases t with
  | uintN n =>
      rw [tree] at hat
      cases hat
  | bool =>
      rw [tree] at hat
      cases hat
  | _ => exact absurd hbasic Bool.false_ne_true

/-- A box with such a field answers the root of the tree of no value once the field is
written. -/
theorem hashTreeRootCached_innerField
    {b b' : TreeBacked (.container (.progressiveContainer active [t] :: gs))}
    {x : (SSZType.container (.progressiveContainer active [t] :: gs)).interp} {y : t.interp}
    (hbasic : t.isBasicType = true) (clean : Clean host legal D b (tree _ x))
    (hupdate : b.sszUpdates dflt [[⟨innerField active t gs, y⟩]] = .ok b')
    (hstore : legal → Storable _ x) (hstore' : legal → Storable _ b'.view)
    (known : Known D b.consing (made (tree _ x) b'.view [⟨innerField active t gs, y⟩]))
    (parts : ∀ u ∈ survivors b'.view [⟨innerField active t gs, y⟩], Known D b.consing u.2) :
    b'.hashTreeRootCached.Meets (contract host legal D) fun r =>
      ∃ a, r.1 = root a ∧
        ∀ x', a ≠ tree (.container (.progressiveContainer active [t] :: gs)) x' := by
  have hplain : ∀ as fs, SSZType.container (.progressiveContainer active [t] :: gs) ≠
      .progressiveContainer as fs := fun _ _ h => SSZType.noConfusion h
  refine (sszUpdates_reads clean hplain hupdate (fun hlegal => handy_tree _ x (hstore hlegal))
    hstore' known parts).mono fun r hr => ?_
  exact ⟨_, hr.1, fun x' => made_innerField hbasic x b'.view x' y⟩

end Progressive

end HazmatSha256.Cache
