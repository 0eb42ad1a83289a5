import HazmatSha256.Cache.Path
set_option autoImplicit false

/-!
# Cache: what a write through a path changes

A write changes the node of its path and nothing else of the tree, it takes away no part
but those below that node, and two paths to one node are there together.
-/

namespace HazmatSha256.Cache

open Foundation Shape Boxed Isal Evp Shim Merkle Ssz

/-! ## Paths that lead into the tree -/

mutual

/-- Every index is below the declared length of its vector or list, and no path leads through
a field of a progressive container: the fields of one stand elsewhere than `Path.bits` says, and
a box that is written there answers a wrong root (`Cache.Stale`). -/
def Path.Addressed : {s u : SSZType} → Path s u → Prop
  | _, _, .here => True
  | _, _, .field p => p.Addressed
  | _, _, .progressiveField _ => False
  | _, _, @Path.vectorAt t n _ i _ p => t.isBasicType = true ∨ i < n ∧ p.Addressed
  | _, _, @Path.listAt t cap _ i _ p => t.isBasicType = true ∨ i < cap ∧ p.Addressed
  | _, _, .progressiveListAt _ _ => True
  | _, _, .progressiveBitAt _ _ => True

def FieldPath.Addressed : {fs : List SSZType} → {u : SSZType} → FieldPath fs u → Prop
  | _, _, .head p => p.Addressed
  | _, _, .tail p => p.Addressed

end

theorem FieldPath.index_lt {u : SSZType} : ∀ {fs : List SSZType} (p : FieldPath fs u),
    p.index < fs.length
  | _, .head _ => Nat.succ_pos _
  | _, .tail p => Nat.succ_lt_succ p.index_lt

theorem lt_two_pow_chunkDepth {i n : Nat} (h : i < n) : i < 2 ^ chunkDepth n :=
  Nat.lt_of_lt_of_le h (le_two_pow_chunkDepth n)

/-- From the root of a perfect tree through one of its subtrees. -/
theorem sub_perfect {subs : List (Shape ByteArray)} {d k : Nat} {t : Shape ByteArray}
    (hk : k < 2 ^ d) (ht : subs[k]? = some t) (p : List Bool) :
    (perfect subs d).sub (gindexBits (2 ^ d + k) ++ p) = t.sub p := by
  rw [gindexBits_place hk, sub_append, perfect, sub_node, Nat.mul_zero, Nat.zero_add,
    Nat.mod_eq_of_lt hk, Option.bind_some, padded, List.getD_eq_getElem?_getD, ht,
    Option.getD_some]

mutual

/-- The node a path writes stands for the part it is rebuilt from. -/
theorem Path.sub_bits : ∀ {s u : SSZType} (p : Path s u) {x : s.interp} {w : Part},
    p.Addressed → p.part x = some w → (tree s x).sub p.bits = some (tree w.1 w.2)
  | s, _, .here, x, w, _, h => by
      rw [Path.part] at h
      cases h
      rw [Path.bits, sub_nil]
  | _, _, @Path.field fs _ p, x, w, ha, h => by
      rw [Path.Addressed] at ha
      rw [Path.part] at h
      obtain ⟨t, ht, hsub⟩ := p.sub_bits ha h
      rw [Path.bits, tree, sub_perfect (lt_two_pow_chunkDepth p.index_lt) ht, hsub]
  | _, _, .progressiveField p, x, w, ha, _ => by
      rw [Path.Addressed] at ha
      exact ha.elim
  | _, _, @Path.vectorAt t n _ i _ p, v, w, ha, h => by
      rw [Path.Addressed] at ha
      rw [Path.part] at h
      rw [Path.bits]
      by_cases hbasic : t.isBasicType = true
      · rw [if_pos hbasic] at h ⊢
        cases h
        rw [sub_nil]
      · rw [if_neg hbasic] at h ⊢
        obtain ⟨hi, ha⟩ := ha.resolve_left hbasic
        rw [dif_pos hi] at h
        have ht : (trees t v.toList)[i]? = some (tree t v[i]) := by
          simp [trees_eq, hi]
        rw [tree, if_neg hbasic, sub_perfect (lt_two_pow_chunkDepth hi) ht, p.sub_bits ha h]
  | _, _, @Path.listAt t cap _ i _ p, xs, w, ha, h => by
      rw [Path.Addressed] at ha
      rw [Path.part] at h
      rw [Path.bits]
      by_cases hbasic : t.isBasicType = true
      · rw [if_pos hbasic] at h ⊢
        cases h
        rw [sub_nil]
      · rw [if_neg hbasic] at h ⊢
        obtain ⟨hcap, ha⟩ := ha.resolve_left hbasic
        split at h
        case isFalse => exact nomatch h
        case isTrue hi =>
          have ht : (trees t xs.val.toList)[i]? = some (tree t xs.val[i]) := by
            simp [trees_eq, hi]
          rw [tree, if_neg hbasic]
          exact (sub_perfect (lt_two_pow_chunkDepth hcap) ht p.bits).trans (p.sub_bits ha h)
  | _, _, @Path.progressiveListAt t _ _, xs, w, _, h => by
      rw [Path.part] at h
      cases h
      rw [Path.bits, sub_nil]
  | _, _, .progressiveBitAt _ _, bs, w, _, h => by
      rw [Path.part] at h
      cases h
      rw [Path.bits, sub_nil]

theorem FieldPath.sub_bits : ∀ {fs : List SSZType} {u : SSZType} (p : FieldPath fs u)
    {vs : SSZType.interpFields fs} {w : Part}, p.Addressed → p.part vs = some w →
    ∃ t, (fieldTrees fs vs)[p.index]? = some t ∧ t.sub p.bits = some (tree w.1 w.2)
  | t :: _, _, .head p, vs, w, ha, h => by
      rw [FieldPath.Addressed] at ha
      rw [FieldPath.part] at h
      refine ⟨tree t vs.1, ?_, p.sub_bits ha h⟩
      rw [fieldTrees]
      rfl
  | _ :: _, _, .tail p, vs, w, ha, h => by
      rw [FieldPath.Addressed] at ha
      rw [FieldPath.part] at h
      obtain ⟨t, ht, hsub⟩ := p.sub_bits ha h
      refine ⟨t, ?_, hsub⟩
      rw [fieldTrees]
      exact ht

end

/-! ## What a write changes -/

/-- Perfect trees over rows that differ in one place. -/
theorem agreeOff_perfect {subs subs' : List (Shape ByteArray)} {d k : Nat}
    {t t' : Shape ByteArray} {p : List Bool} (hk : k < 2 ^ d) (ht : subs[k]? = some t)
    (ht' : subs'[k]? = some t') (hne : ∀ j, j ≠ k → subs[j]? = subs'[j]?)
    (hat : AgreeOff (fun q => q = p) t t') :
    AgreeOff (fun q => q = gindexBits (2 ^ d + k) ++ p) (perfect subs d) (perfect subs' d) := by
  have hidx : 2 ^ d * 0 + k % 2 ^ d = k := by
    rw [Nat.mul_zero, Nat.zero_add, Nat.mod_eq_of_lt hk]
  have hnode : AgreeOff (under (steps d k) fun q => q = p) (perfect subs d) (perfect subs' d) := by
    refine agreeOff_node (i := 0) ?_ ?_
    · intro j hj
      rw [hidx] at hj
      rw [padded, padded, List.getD_eq_getElem?_getD, List.getD_eq_getElem?_getD, hne j hj]
    · rw [hidx, padded, padded, List.getD_eq_getElem?_getD, List.getD_eq_getElem?_getD, ht, ht']
      exact hat
  refine hnode.mono ?_
  rintro q ⟨r, rfl, rfl⟩
  rw [gindexBits_place hk]

/-- The part is there: no index on the way is past the end. -/
abbrev Path.Live {s u : SSZType} (p : Path s u) (x : s.interp) : Prop := (p.part x).isSome = true

abbrev FieldPath.Live {fs : List SSZType} {u : SSZType} (p : FieldPath fs u)
    (vs : SSZType.interpFields fs) : Prop :=
  (p.part vs).isSome = true

section Live

variable {s t u : SSZType} {fs ts : List SSZType} {i n cap : Nat} {checked : Bool}

@[simp] theorem live_here (x : s.interp) : (Path.here : Path s s).Live x := by
  rw [Path.Live, Path.part]
  rfl

@[simp] theorem live_field (p : FieldPath fs u) (vs : SSZType.interpFields fs) :
    (Path.field p).Live vs ↔ p.Live vs := by
  rw [Path.Live, Path.part]

@[simp] theorem live_head (p : Path t u) (vs : SSZType.interpFields (t :: ts)) :
    (FieldPath.head p).Live vs ↔ p.Live vs.1 := by
  rw [FieldPath.Live, FieldPath.part]

@[simp] theorem live_tail (p : FieldPath ts u) (vs : SSZType.interpFields (t :: ts)) :
    (FieldPath.tail p).Live vs ↔ p.Live vs.2 := by
  rw [FieldPath.Live, FieldPath.part]

@[simp] theorem live_progressiveListAt (xs : Array t.interp) :
    (Path.progressiveListAt i checked : Path (.progressiveList t) t).Live xs := by
  rw [Path.Live, Path.part]
  rfl

@[simp] theorem live_progressiveBitAt (bs : Array Bool) :
    (Path.progressiveBitAt i checked).Live bs := by
  rw [Path.Live, Path.part]
  rfl

theorem live_vectorAt_basic (hbasic : t.isBasicType = true) (p : Path t u)
    (v : Vector t.interp n) : (Path.vectorAt i checked p).Live v := by
  rw [Path.Live, Path.part, if_pos hbasic]
  rfl

theorem live_listAt_basic (hbasic : t.isBasicType = true) (p : Path t u)
    (xs : { xs : Array t.interp // xs.size ≤ cap }) : (Path.listAt i checked p).Live xs := by
  rw [Path.Live, Path.part, if_pos hbasic]
  rfl

theorem live_vectorAt (hbasic : ¬ t.isBasicType = true) (p : Path t u) (v : Vector t.interp n) :
    (Path.vectorAt i checked p).Live v ↔ ∃ h : i < n, p.Live v[i] := by
  rw [Path.Live, Path.part, if_neg hbasic]
  by_cases h : i < n <;> simp [h]

theorem live_listAt (hbasic : ¬ t.isBasicType = true) (p : Path t u)
    (xs : { xs : Array t.interp // xs.size ≤ cap }) :
    (Path.listAt i checked p).Live xs ↔ ∃ h : i < xs.val.size, p.Live xs.val[i] := by
  rw [Path.Live, Path.part, if_neg hbasic]
  by_cases h : i < xs.val.size <;> simp [h]

end Live

variable {dflt : Defaults}

/-- A write is void, or it changes nothing but the node it writes and leaves the part there. -/
inductive Wrote {s u : SSZType} (p : Path s u) (x x' : s.interp) : Prop where
  | void (dead : ¬ p.Live x) (same : x' = x)
  | done (live : p.Live x) (live' : p.Live x')
      (agree : AgreeOff (fun q => q = p.bits) (tree s x) (tree s x'))

inductive FieldWrote {fs : List SSZType} {u : SSZType} (p : FieldPath fs u)
    (vs vs' : SSZType.interpFields fs) : Prop where
  | void (dead : ¬ p.Live vs) (same : vs' = vs)
  | done (live : p.Live vs) (live' : p.Live vs') {t t' : Shape ByteArray}
      (at_index : (fieldTrees fs vs)[p.index]? = some t)
      (at_index' : (fieldTrees fs vs')[p.index]? = some t')
      (agree : AgreeOff (fun q => q = p.bits) t t')
      (elsewhere : ∀ j, j ≠ p.index → (fieldTrees fs vs)[j]? = (fieldTrees fs vs')[j]?)

/-- A path whose node is the root. -/
theorem Wrote.of_nil {s u : SSZType} {p : Path s u} {x x' : s.interp} (hbits : p.bits = [])
    (live : ∀ x, p.Live x) : Wrote p x x' :=
  .done (live x) (live x') (AgreeOff.of_nil hbits.symm)

/-- The element that is there, written back. -/
theorem vector_set_self {α : Type} {n i : Nat} (v : Vector α n) (hi : i < n) :
    v.setIfInBounds i v[i] = v := by
  grind

theorem array_set_self {α : Type} {i : Nat} (xs : Array α) (hi : i < xs.size) :
    xs.setIfInBounds i xs[i] = xs := by
  grind

/-- One element of a row is written. -/
theorem agreeOff_trees {t : SSZType} {xs : List t.interp} {i d : Nat} {x x' : t.interp}
    {p : List Bool} (hd : i < 2 ^ d) (hx : xs[i]? = some x)
    (hat : AgreeOff (fun q => q = p) (tree t x) (tree t x')) :
    AgreeOff (fun q => q = gindexBits (2 ^ d + i) ++ p) (perfect (trees t xs) d)
      (perfect (trees t (xs.set i x')) d) := by
  have hi : i < xs.length := (List.getElem?_eq_some_iff.mp hx).1
  have ht : (trees t xs)[i]? = some (tree t x) := by simp [trees_eq, hx]
  have ht' : (trees t (xs.set i x'))[i]? = some (tree t x') := by simp [trees_eq, hi]
  refine agreeOff_perfect hd ht ht' ?_ hat
  intro j hj
  simp [trees_eq, List.getElem?_set_ne (Ne.symm hj)]

mutual

theorem Path.write_wrote : ∀ {s u : SSZType} (p : Path s u) (y : u.interp) (x : s.interp),
    p.Addressed → Wrote p x (p.write dflt y x)
  | _, _, .here, _, _, _ => Wrote.of_nil (by rw [Path.bits]) live_here
  | _, _, @Path.field fs _ p, y, x, ha => by
      rw [Path.Addressed] at ha
      rw [Path.write]
      cases p.write_wrote y x ha with
      | void dead same => exact .void (by rwa [live_field]) same
      | done live live' ht ht' agree elsewhere =>
          refine .done ((live_field p x).mpr live) ((live_field p _).mpr live') ?_
          rw [Path.bits, tree, tree]
          exact agreeOff_perfect (lt_two_pow_chunkDepth p.index_lt) ht ht' elsewhere agree
  | _, _, .progressiveField _, _, _, ha => by
      rw [Path.Addressed] at ha
      exact ha.elim
  | _, _, @Path.vectorAt t n _ i checked p, y, v, ha => by
      by_cases hbasic : t.isBasicType = true
      · exact Wrote.of_nil (by rw [Path.bits, if_pos hbasic]) (live_vectorAt_basic hbasic p)
      rw [Path.Addressed] at ha
      obtain ⟨hi, ha⟩ := ha.resolve_left hbasic
      have hread : v[i]?.getD (dflt t) = v[i] := by simp [hi]
      rw [Path.write, hread]
      cases p.write_wrote y v[i] ha with
      | void dead same =>
          refine .void ?_ ?_
          · rw [live_vectorAt hbasic]
            exact fun ⟨_, h⟩ => dead h
          · rw [same, vector_set_self v hi]
      | done live live' agree =>
          refine .done ((live_vectorAt hbasic p v).mpr ⟨hi, live⟩) ?_ ?_
          · rw [live_vectorAt hbasic]
            exact ⟨hi, by rwa [Vector.getElem_setIfInBounds_self]⟩
          · rw [Path.bits, if_neg hbasic, tree, tree, if_neg hbasic, if_neg hbasic,
              Vector.toList_setIfInBounds]
            exact agreeOff_trees (lt_two_pow_chunkDepth hi) (by simp [hi]) agree
  | _, _, @Path.listAt t cap _ i checked p, y, xs, ha => by
      by_cases hbasic : t.isBasicType = true
      · exact Wrote.of_nil (by rw [Path.bits, if_pos hbasic]) (live_listAt_basic hbasic p)
      rw [Path.Addressed] at ha
      obtain ⟨hcap, ha⟩ := ha.resolve_left hbasic
      rw [Path.write]
      by_cases hi : i < xs.val.size
      · have hread : xs.val[i]?.getD (dflt t) = xs.val[i] := by simp [hi]
        rw [hread]
        cases p.write_wrote y xs.val[i] ha with
        | void dead same =>
            refine .void ?_ (Subtype.ext ?_)
            · rw [live_listAt hbasic]
              exact fun ⟨_, h⟩ => dead h
            · rw [same]
              exact array_set_self xs.val hi
        | done live live' agree =>
            refine .done ((live_listAt hbasic p xs).mpr ⟨hi, live⟩) ?_ ?_
            · rw [live_listAt hbasic]
              exact ⟨by simpa [listSet] using hi, by simpa [listSet] using live'⟩
            · rw [Path.bits, if_neg hbasic, tree, tree, if_neg hbasic, if_neg hbasic]
              have hx : xs.val.toList[i]? = some xs.val[i] := by simp [hi]
              have hbody := agreeOff_trees (lt_two_pow_chunkDepth hcap) hx agree
              have hset : (listSet xs i (p.write dflt y xs.val[i])).val.toList =
                  xs.val.toList.set i (p.write dflt y xs.val[i]) := Array.toList_setIfInBounds
              have hsize : (listSet xs i (p.write dflt y xs.val[i])).val.size = xs.val.size :=
                Array.size_setIfInBounds
              rw [hset, hsize]
              refine AgreeOff.pair (hbody.mono ?_) (AgreeOff.refl _ _)
              rintro q rfl
              rfl
      · refine .void ?_ (Subtype.ext ?_)
        · rw [live_listAt hbasic]
          exact fun ⟨h, _⟩ => hi h
        · exact Array.setIfInBounds_eq_of_size_le (Nat.le_of_not_lt hi)
  | _, _, .progressiveListAt _ _, _, _, _ =>
      Wrote.of_nil (by rw [Path.bits]) live_progressiveListAt
  | _, _, .progressiveBitAt _ _, _, _, _ =>
      Wrote.of_nil (by rw [Path.bits]) live_progressiveBitAt

theorem FieldPath.write_wrote : ∀ {fs : List SSZType} {u : SSZType} (p : FieldPath fs u)
    (y : u.interp) (vs : SSZType.interpFields fs), p.Addressed →
    FieldWrote p vs (p.write dflt y vs)
  | t :: ts, _, .head p, y, vs, ha => by
      rw [FieldPath.Addressed] at ha
      rw [FieldPath.write]
      cases p.write_wrote y vs.1 ha with
      | void dead same =>
          refine .void (by rwa [live_head]) ?_
          rw [same]
      | done live live' agree =>
          refine .done ((live_head p vs).mpr live) ((live_head p _).mpr live')
            (t := tree t vs.1) ?_ ?_ agree ?_
          · rw [fieldTrees]
            rfl
          · rw [fieldTrees]
            rfl
          · intro j hj
            rw [fieldTrees, fieldTrees]
            cases j with
            | zero => exact absurd rfl hj
            | succ j => rfl
  | t :: ts, _, .tail p, y, vs, ha => by
      rw [FieldPath.Addressed] at ha
      rw [FieldPath.write]
      cases p.write_wrote y vs.2 ha with
      | void dead same =>
          refine .void (by rwa [live_tail]) ?_
          rw [same]
      | done live live' ht ht' agree elsewhere =>
          refine .done ((live_tail p vs).mpr live) ((live_tail p _).mpr live') ?_ ?_ agree ?_
          · rw [fieldTrees]
            exact ht
          · rw [fieldTrees]
            exact ht'
          · intro j hj
            rw [fieldTrees, fieldTrees]
            cases j with
            | zero => rfl
            | succ j => exact elsewhere j fun h => hj (congrArg Nat.succ h)

end

/-! ## Two paths -/

mutual

/-- A write takes away only what lies below the node it writes. -/
theorem Path.shadows : ∀ {s u v : SSZType} (p : Path s u) (q : Path s v) (y : u.interp)
    (x : s.interp), p.Addressed → q.Live x → ¬ q.Live (p.write dflt y x) → p.bits <+: q.bits
  | _, _, _, .here, q, _, _, _, _, _ => by
      rw [Path.bits]
      exact List.nil_prefix
  | _, _, _, @Path.field fs _ p, q, y, x, ha, hq, hdead => by
      rw [Path.Addressed] at ha
      rw [Path.write] at hdead
      cases q with
      | here => exact absurd (live_here _) hdead
      | field q =>
          rw [live_field] at hq hdead
          obtain ⟨hindex, hprefix⟩ := p.shadows q y x ha hq hdead
          rw [Path.bits, Path.bits, hindex]
          exact (List.prefix_append_right_inj _).mpr hprefix
  | _, _, _, .progressiveField _, _, _, _, ha, _, _ => by
      rw [Path.Addressed] at ha
      exact ha.elim
  | _, _, _, @Path.vectorAt t n _ i checked p, q, y, v, ha, hq, hdead => by
      by_cases hbasic : t.isBasicType = true
      · rw [Path.bits, if_pos hbasic]
        exact List.nil_prefix
      rw [Path.Addressed] at ha
      obtain ⟨hi, ha⟩ := ha.resolve_left hbasic
      have hread : v[i]?.getD (dflt t) = v[i] := by simp [hi]
      rw [Path.write, hread] at hdead
      cases q with
      | here => exact absurd (live_here _) hdead
      | vectorAt j _ q =>
          rw [live_vectorAt hbasic] at hq hdead
          obtain ⟨hj, hq⟩ := hq
          by_cases hij : i = j
          · subst hij
            rw [Path.bits, Path.bits, if_neg hbasic, if_neg hbasic]
            refine (List.prefix_append_right_inj _).mpr (p.shadows q y v[i] ha hq fun hlive => ?_)
            exact hdead ⟨hi, by rwa [Vector.getElem_setIfInBounds_self]⟩
          · exact absurd ⟨hj, by rwa [Vector.getElem_setIfInBounds_ne hj hij]⟩ hdead
  | _, _, _, @Path.listAt t cap _ i checked p, q, y, xs, ha, hq, hdead => by
      by_cases hbasic : t.isBasicType = true
      · rw [Path.bits, if_pos hbasic]
        exact List.nil_prefix
      rw [Path.Addressed] at ha
      obtain ⟨hcap, ha⟩ := ha.resolve_left hbasic
      rw [Path.write] at hdead
      cases q with
      | here => exact absurd (live_here _) hdead
      | listAt j _ q =>
          rw [live_listAt hbasic] at hq hdead
          obtain ⟨hj, hq⟩ := hq
          have hj' : ∀ z, j < (listSet xs i z).val.size := fun z => by simpa [listSet] using hj
          by_cases hij : i = j
          · subst hij
            have hread : xs.val[i]?.getD (dflt t) = xs.val[i] := by simp [hj]
            rw [hread] at hdead
            rw [Path.bits, Path.bits, if_neg hbasic, if_neg hbasic]
            refine (List.prefix_append_right_inj _).mpr
              (p.shadows q y xs.val[i] ha hq fun hlive => ?_)
            exact hdead ⟨hj' _, by simpa [listSet] using hlive⟩
          · refine absurd ⟨hj' _, ?_⟩ hdead
            have hj'' := hj' (p.write dflt y (xs.val[i]?.getD (dflt t)))
            have hsame : (listSet xs i (p.write dflt y (xs.val[i]?.getD (dflt t)))).val[j] =
                xs.val[j] := Array.getElem_setIfInBounds_ne hj hij
            rwa [hsame]
  | _, _, _, .progressiveListAt _ _, _, _, _, _, _, _ => by
      rw [Path.bits]
      exact List.nil_prefix
  | _, _, _, .progressiveBitAt _ _, _, _, _, _, _, _ => by
      rw [Path.bits]
      exact List.nil_prefix

theorem FieldPath.shadows : ∀ {fs : List SSZType} {u v : SSZType} (p : FieldPath fs u)
    (q : FieldPath fs v) (y : u.interp) (vs : SSZType.interpFields fs), p.Addressed →
    q.Live vs → ¬ q.Live (p.write dflt y vs) → p.index = q.index ∧ p.bits <+: q.bits
  | _, _, _, .head p, q, y, vs, ha, hq, hdead => by
      rw [FieldPath.Addressed] at ha
      rw [FieldPath.write] at hdead
      cases q with
      | head q =>
          rw [live_head] at hq hdead
          exact ⟨rfl, p.shadows q y vs.1 ha hq hdead⟩
      | tail q =>
          rw [live_tail] at hq hdead
          exact absurd hq hdead
  | _, _, _, .tail p, q, y, vs, ha, hq, hdead => by
      rw [FieldPath.Addressed] at ha
      rw [FieldPath.write] at hdead
      cases q with
      | head q =>
          rw [live_head] at hq hdead
          exact absurd hq hdead
      | tail q =>
          rw [live_tail] at hq hdead
          obtain ⟨hindex, hprefix⟩ := p.shadows q y vs.2 ha hq hdead
          exact ⟨congrArg Nat.succ hindex, hprefix⟩

end

mutual

/-- What is rebuilt at the root is always there. -/
theorem Path.live_of_nil : ∀ {s u : SSZType} (p : Path s u) (x : s.interp), p.Addressed →
    p.bits = [] → p.Live x
  | _, _, .here, x, _, _ => live_here x
  | _, _, .field p, x, ha, hnil => by
      rw [Path.Addressed] at ha
      rw [Path.bits, List.append_eq_nil_iff] at hnil
      exact (live_field p x).mpr (p.live_of_nil x ha hnil.2)
  | _, _, .progressiveField _, _, ha, _ => by
      rw [Path.Addressed] at ha
      exact ha.elim
  | _, _, @Path.vectorAt t _ _ _ _ p, v, ha, hnil => by
      by_cases hbasic : t.isBasicType = true
      · exact live_vectorAt_basic hbasic p v
      rw [Path.Addressed] at ha
      obtain ⟨hi, ha⟩ := ha.resolve_left hbasic
      rw [Path.bits, if_neg hbasic, List.append_eq_nil_iff] at hnil
      exact (live_vectorAt hbasic p v).mpr ⟨hi, p.live_of_nil v[_] ha hnil.2⟩
  | _, _, @Path.listAt t _ _ _ _ p, xs, _, hnil => by
      by_cases hbasic : t.isBasicType = true
      · exact live_listAt_basic hbasic p xs
      · rw [Path.bits, if_neg hbasic] at hnil
        exact nomatch hnil
  | _, _, .progressiveListAt _ _, xs, _, _ => live_progressiveListAt xs
  | _, _, .progressiveBitAt _ _, bs, _, _ => live_progressiveBitAt bs

theorem FieldPath.live_of_nil : ∀ {fs : List SSZType} {u : SSZType} (p : FieldPath fs u)
    (vs : SSZType.interpFields fs), p.Addressed → p.bits = [] → p.Live vs
  | _, _, .head p, vs, ha, hnil => by
      rw [FieldPath.Addressed] at ha
      rw [FieldPath.bits] at hnil
      exact (live_head p vs).mpr (p.live_of_nil vs.1 ha hnil)
  | _, _, .tail p, vs, ha, hnil => by
      rw [FieldPath.Addressed] at ha
      rw [FieldPath.bits] at hnil
      exact (live_tail p vs).mpr (p.live_of_nil vs.2 ha hnil)

end

mutual

/-- Two paths that write one node are there together. -/
theorem Path.live_of_bits_eq : ∀ {s u v : SSZType} (p : Path s u) (q : Path s v) (x : s.interp),
    p.Addressed → q.Addressed → p.bits = q.bits → q.Live x → p.Live x
  | _, _, _, .here, _, x, _, _, _, _ => live_here x
  | _, _, _, .field p, q, x, ha, hb, heq, hq => by
      cases q with
      | here => exact Path.live_of_nil _ x ha (heq.trans (by rw [Path.bits]))
      | field q =>
          rw [Path.Addressed] at ha hb
          rw [Path.bits, Path.bits] at heq
          obtain ⟨hindex, hbits⟩ := place_append_inj (lt_two_pow_chunkDepth p.index_lt)
            (lt_two_pow_chunkDepth q.index_lt) heq
          rw [live_field] at hq ⊢
          exact p.live_of_bits_eq q x ha hb hindex hbits hq
  | _, _, _, .progressiveField _, _, _, ha, _, _, _ => by
      rw [Path.Addressed] at ha
      exact ha.elim
  | _, _, _, @Path.vectorAt t _ _ _ _ p, q, v, ha, hb, heq, hq => by
      by_cases hbasic : t.isBasicType = true
      · exact live_vectorAt_basic hbasic p v
      cases q with
      | here => exact Path.live_of_nil _ v ha (heq.trans (by rw [Path.bits]))
      | vectorAt j _ q =>
          rw [Path.Addressed] at ha hb
          obtain ⟨hi, ha⟩ := ha.resolve_left hbasic
          obtain ⟨hj, hq'⟩ := hb.resolve_left hbasic
          rw [Path.bits, Path.bits, if_neg hbasic, if_neg hbasic] at heq
          obtain ⟨rfl, hbits⟩ := place_append_inj (lt_two_pow_chunkDepth hi)
            (lt_two_pow_chunkDepth hj) heq
          obtain ⟨hj, hq⟩ := (live_vectorAt hbasic q v).mp hq
          exact (live_vectorAt hbasic p v).mpr ⟨hi, p.live_of_bits_eq q v[_] ha hq' hbits hq⟩
  | _, _, _, @Path.listAt t _ _ _ _ p, q, xs, ha, hb, heq, hq => by
      by_cases hbasic : t.isBasicType = true
      · exact live_listAt_basic hbasic p xs
      rw [Path.bits, if_neg hbasic] at heq
      cases q with
      | here =>
          rw [Path.bits] at heq
          exact nomatch heq
      | listAt j _ q =>
          rw [Path.Addressed] at ha hb
          obtain ⟨hi, ha⟩ := ha.resolve_left hbasic
          obtain ⟨hj, hq'⟩ := hb.resolve_left hbasic
          rw [Path.bits, if_neg hbasic, List.append_assoc, List.append_assoc] at heq
          obtain ⟨rfl, hbits⟩ := place_append_inj (lt_two_pow_chunkDepth hi)
            (lt_two_pow_chunkDepth hj) (List.append_cancel_left heq)
          obtain ⟨hj, hq⟩ := (live_listAt hbasic q xs).mp hq
          exact (live_listAt hbasic p xs).mpr ⟨hj, p.live_of_bits_eq q xs.val[_] ha hq' hbits hq⟩
  | _, _, _, .progressiveListAt _ _, _, xs, _, _, _, _ => live_progressiveListAt xs
  | _, _, _, .progressiveBitAt _ _, _, bs, _, _, _, _ => live_progressiveBitAt bs

theorem FieldPath.live_of_bits_eq : ∀ {fs : List SSZType} {u v : SSZType} (p : FieldPath fs u)
    (q : FieldPath fs v) (vs : SSZType.interpFields fs), p.Addressed → q.Addressed →
    p.index = q.index → p.bits = q.bits → q.Live vs → p.Live vs
  | _, _, _, .head p, q, vs, ha, hb, hindex, heq, hq => by
      cases q with
      | head q =>
          rw [FieldPath.Addressed] at ha hb
          rw [FieldPath.bits, FieldPath.bits] at heq
          rw [live_head] at hq ⊢
          exact p.live_of_bits_eq q vs.1 ha hb heq hq
      | tail q => exact nomatch hindex
  | _, _, _, .tail p, q, vs, ha, hb, hindex, heq, hq => by
      cases q with
      | head q => exact nomatch hindex
      | tail q =>
          rw [FieldPath.Addressed] at ha hb
          rw [FieldPath.bits, FieldPath.bits] at heq
          rw [live_tail] at hq ⊢
          exact p.live_of_bits_eq q vs.2 ha hb (Nat.succ.inj hindex) heq hq

end

/-! ## Parts of a value that can exist -/

theorem storable_of_mem {t : SSZType} : ∀ {xs : List t.interp} {x : t.interp},
    StorableElems t xs → x ∈ xs → Storable t x
  | y :: ys, x, h, hmem => by
      rw [StorableElems] at h
      obtain rfl | hmem := List.mem_cons.mp hmem
      · exact h.1
      · exact storable_of_mem h.2 hmem

mutual

theorem Path.storable_part : ∀ {s u : SSZType} (p : Path s u) {x : s.interp} {w : Part},
    p.part x = some w → Storable s x → Storable w.1 w.2
  | _, _, .here, _, _, h, hstore => by
      rw [Path.part] at h
      cases h
      exact hstore
  | _, _, .field p, _, _, h, hstore => by
      rw [Path.part] at h
      rw [Storable] at hstore
      exact p.storable_part h hstore.2
  | _, _, .progressiveField p, _, _, h, hstore => by
      rw [Path.part] at h
      rw [Storable] at hstore
      exact p.storable_part h hstore.2
  | _, _, @Path.vectorAt t n _ i _ p, v, _, h, hstore => by
      rw [Path.part] at h
      split at h
      · cases h
        exact hstore
      · split at h
        case isTrue hi =>
          rw [Storable] at hstore
          exact p.storable_part h (storable_of_mem hstore.2 (by simp))
        case isFalse => exact nomatch h
  | _, _, @Path.listAt t cap _ i _ p, xs, _, h, hstore => by
      rw [Path.part] at h
      split at h
      · cases h
        exact hstore
      · split at h
        case isTrue hi =>
          rw [Storable] at hstore
          exact p.storable_part h (storable_of_mem hstore.2 (by simp))
        case isFalse => exact nomatch h
  | _, _, @Path.progressiveListAt t _ _, _, _, h, hstore => by
      rw [Path.part] at h
      cases h
      exact hstore
  | _, _, .progressiveBitAt _ _, _, _, h, hstore => by
      rw [Path.part] at h
      cases h
      exact hstore

theorem FieldPath.storable_part : ∀ {fs : List SSZType} {u : SSZType} (p : FieldPath fs u)
    {vs : SSZType.interpFields fs} {w : Part}, p.part vs = some w → StorableFields fs vs →
    Storable w.1 w.2
  | _, _, .head p, _, _, h, hstore => by
      rw [FieldPath.part] at h
      rw [StorableFields] at hstore
      exact p.storable_part h hstore.1
  | _, _, .tail p, _, _, h, hstore => by
      rw [FieldPath.part] at h
      rw [StorableFields] at hstore
      exact p.storable_part h hstore.2

end

end HazmatSha256.Cache
