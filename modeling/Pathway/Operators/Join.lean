import Pathway.Engine.Table

/-! `join_tables` at one time. Each side's rows get a join key from their condition
columns (none when a part is `Value::Error`); `join_core` pairs the rows of equal join
keys; an outer side adds its rows less the distinct matched ones, padded with `None`; a
left-keys join keeps the left key and `replace_duplicates_with_error` makes it unique. The
hashes the keys are made of (`Key::for_values`, `Key::with_shard_of`,
`ShardPolicy::generate_key`) are not in the source and are parameters. -/
namespace Pathway
namespace Join
open ZSet

/-- `JoinType`. -/
inductive JoinType where
  | inner
  | leftOuter
  | rightOuter
  | fullOuter
  | leftKeysFull
  | leftKeysSubset
  deriving DecidableEq, Repr

/-- The hashes `join_tables` makes keys with. -/
structure KeyHash where
  forValues : List Value → Key
  withShardOf : Key → Key → Key
  generateKey : List Value → Key

/-- `extract_join_key`: the condition columns of a row, hashed into its join key; a part
that is `Value::Error` gives no key and logs `ErrorInJoin`. -/
def extractJoinKey (h : KeyHash) (paths : List ColumnPath) (r : Row) :
    Except Error (Option Key × List DataError) := do
  let parts ← ColumnPath.extractAll paths r.1 r.2
  if parts.contains .error then pure (none, [.errorInJoin]) else pure (some (h.generateKey parts), [])

/-- `map_named("join::extract_keys", ..)`: every row with its join key. -/
def withJoinKey (h : KeyHash) (paths : List ColumnPath) :
    ZSet Row → Except Error (ZSet (Option Key × Row) × List DataError)
  | [] => pure ([], [])
  | (r, d) :: z => do
    let j ← extractJoinKey h paths r
    let rest ← withJoinKey h paths z
    pure (((j.1, r), d) :: rest.1, j.2 ++ rest.2)

/-- `flat_map(|(join_key, key_values)| Some((join_key?, key_values)))`: the rows that have
a join key. -/
def joinSide (z : ZSet (Option Key × Row)) : ZSet (Key × Row) :=
  ZSet.flatMap (fun u => (u.1.map fun j => (j, u.2)).toList) z

/-- `join_core` of the arranged sides. -/
def joinLeftRight (jl jr : ZSet (Key × Row)) : ZSet (Key × Row × Row) :=
  joinCore (fun j l r => [(j, l, r)]) jl jr

/-- `join_left_right_to_result_fn`. -/
def resultKey (h : KeyHash) (jt : JoinType) (j lk rk : Key) : Key :=
  match jt with
  | .leftKeysFull | .leftKeysSubset => lk
  | _ => h.withShardOf (h.forValues [.pointer lk, .pointer rk]) j

/-- A matched pair's output row. -/
def matchedRow (h : KeyHash) (jt : JoinType) (j : Key) (l r : Row) : Row :=
  (resultKey h jt j l.1 r.1, .tuple [.pointer l.1, l.2, .pointer r.1, r.2])

/-- The key of a left row padded with `None`; a row with `Value::Error` in its condition
has no join key and takes its own key's shard. -/
def leftPadKey (h : KeyHash) (jt : JoinType) (jk : Option Key) (lk : Key) : Key :=
  match jt with
  | .leftKeysFull => lk
  | _ => h.withShardOf (h.forValues [.pointer lk, .none]) (jk.getD lk)

/-- A left row padded with `None`. -/
def leftPadRow (h : KeyHash) (jt : JoinType) (jk : Option Key) (l : Row) : Row :=
  (leftPadKey h jt jk l.1, .tuple [.pointer l.1, l.2, .none, .none])

/-- A right row padded with `None`. -/
def rightPadRow (h : KeyHash) (jk : Option Key) (r : Row) : Row :=
  (h.withShardOf (h.forValues [.none, .pointer r.1]) (jk.getD r.1),
    .tuple [.none, .none, .pointer r.1, r.2])

/-- The join types that add the unmatched left rows. -/
def padsLeft : JoinType → Bool
  | .leftOuter | .fullOuter | .leftKeysFull => true
  | _ => false

/-- The join types that add the unmatched right rows. -/
def padsRight : JoinType → Bool
  | .rightOuter | .fullOuter => true
  | _ => false

/-- `left_outer()` / `right_outer()`: a side's rows with their join keys, less the distinct
rows of the side that were matched. -/
def outerSide (side : ZSet (Option Key × Row)) (matched : ZSet (Key × Row)) :
    ZSet (Option Key × Row) :=
  side ++ ZSet.map (fun x => (some x.1, x.2)) (ZSet.negate (ZSet.distinct matched))

/-- The rows of `join_tables` before `replace_duplicates_with_error`. -/
def joinRows (h : KeyHash) (jt : JoinType) (lj rj : ZSet (Option Key × Row)) : ZSet Row :=
  let jlr := joinLeftRight (joinSide lj) (joinSide rj)
  let resultLeftRight := ZSet.map (fun x => matchedRow h jt x.1 x.2.1 x.2.2) jlr
  let resultLeftOuter := if padsLeft jt then
      ZSet.map (fun x => leftPadRow h jt x.1 x.2) (outerSide lj (ZSet.map (fun x => (x.1, x.2.1)) jlr))
    else []
  let resultRightOuter := if padsRight jt then
      ZSet.map (fun x => rightPadRow h x.1 x.2) (outerSide rj (ZSet.map (fun x => (x.1, x.2.2)) jlr))
    else []
  resultLeftRight ++ resultLeftOuter ++ resultRightOuter

/-- The `error_logic` of a left-keys join: the left key and values, then two errors. -/
def joinErrorRow (v : Value) : Except Error Value :=
  match v.asTuple with
  | some t => match t[0]?, t[1]? with
    | some a, some b => pure (.tuple [a, b, .error, .error])
    | _, _ => throw (.assertion "index out of bounds")
  | none => throw (.reported "as_tuple")

/-- The reduce logic of `replace_duplicates_with_error`: a key with one row of count one
keeps it; any other slice becomes the error row of its first value, logged as
`DuplicateKey`. -/
def replaceDuplicatesLogic (errorLogic : Value → Except Error Value) (k : Key) :
    List (Value × ℤ) → Except Error (List (Value × ℤ) × List DataError)
  | [] => throw (.assertion "unreachable")
  | [(v, d)] =>
    if d = 1 then pure ([(v, 1)], [])
    else do
      let e ← errorLogic v
      pure ([(e, 1)], [.duplicateKey k])
  | (v, _) :: _ => do
    let e ← errorLogic v
    pure ([(e, 1)], [.duplicateKey k])

/-- `join_tables` at one time; `le` is the order of values the reduce of
`replace_duplicates_with_error` sorts a key's slice by. -/
def joinTables (h : KeyHash) (jt : JoinType) (pathsL pathsR : List ColumnPath) (le : Value → Value → Bool)
    (L R : ZSet Row) : Except Error (ZSet Row × List DataError) := do
  if pathsL.length ≠ pathsR.length then throw (.reported "DifferentJoinConditionLengths")
  let lj ← withJoinKey h pathsL L
  let rj ← withJoinKey h pathsR R
  let rows := joinRows h jt lj.1 rj.1
  match jt with
  | .leftKeysFull | .leftKeysSubset => do
    let out ← reduce le (replaceDuplicatesLogic joinErrorRow) rows
    pure (out.1, lj.2 ++ rj.2 ++ out.2)
  | _ => pure (rows, lj.2 ++ rj.2)

/-- The join key `extract_join_key` gives a row whose condition columns extract. -/
def joinKeyOf (h : KeyHash) (paths : List ColumnPath) (r : Row) : Option Key :=
  match extractJoinKey h paths r with
  | .ok j => j.1
  | .error _ => none

/-- The rows of `S` whose join key is that of `a`, when `a` has one. -/
def partners (jkA jkB : Row → Option Key) (S : List Row) (a : Row) : List Row :=
  match jkA a with
  | none => []
  | some j => S.filter fun b => jkB b = some j

/-- Every left row with every partner, with their join key. -/
def matchedPairs (jkL jkR : Row → Option Key) (SL SR : List Row) : List (Key × Row × Row) :=
  SL.flatMap fun l => match jkL l with
    | none => []
    | some j => (SR.filter fun r => jkR r = some j).map fun r => (j, l, r)

/-- The output of a join of the rows `SL` and `SR`: a row for every matched pair, and for
each outer side a padded row for every row of the side with no partner. -/
def joinSpec (h : KeyHash) (jt : JoinType) (jkL jkR : Row → Option Key) (SL SR : List Row) :
    List Row :=
  (matchedPairs jkL jkR SL SR).map (fun x => matchedRow h jt x.1 x.2.1 x.2.2) ++
    (if padsLeft jt then ((SL.filter fun l => partners jkL jkR SR l = []).map fun l =>
      leftPadRow h jt (jkL l) l) else []) ++
    (if padsRight jt then ((SR.filter fun r => partners jkR jkL SL r = []).map fun r =>
      rightPadRow h (jkR r) r) else [])

theorem mem_matchedPairs {jkL jkR : Row → Option Key} {SL SR : List Row} {x : Key × Row × Row} :
    x ∈ matchedPairs jkL jkR SL SR ↔
      x.2.1 ∈ SL ∧ x.2.2 ∈ SR ∧ jkL x.2.1 = some x.1 ∧ jkR x.2.2 = some x.1 := by
  obtain ⟨j, l, r⟩ := x
  simp only [matchedPairs, List.mem_flatMap]
  constructor
  · rintro ⟨l', hl', hx⟩
    cases hj : jkL l' with
    | none => simp [hj] at hx
    | some j' =>
      simp only [hj, List.mem_map, List.mem_filter, decide_eq_true_eq, Prod.mk.injEq] at hx
      obtain ⟨r', ⟨hr', hjr⟩, rfl, rfl, rfl⟩ := hx
      exact ⟨hl', hr', hj, hjr⟩
  · rintro ⟨hl, hr, hjl, hjr⟩
    exact ⟨l, hl, by simp [hjl, hr, hjr]⟩

theorem mem_partners {jkA jkB : Row → Option Key} {S : List Row} {a b : Row} :
    b ∈ partners jkA jkB S a ↔ b ∈ S ∧ ∃ j, jkA a = some j ∧ jkB b = some j := by
  unfold partners
  cases jkA a <;> simp

/-- The rows of a side that have a join key, with it. -/
theorem joinSide_ofList (jk : Row → Option Key) (S : List Row) :
    joinSide (ofList (S.map fun r => (jk r, r))) = ofList (S.filterMap fun r => (jk r).map (·, r)) := by
  have h : ∀ S : List Row, ((S.map fun r => (jk r, r)).flatMap fun u =>
      (u.1.map fun j => (j, u.2)).toList) = S.filterMap fun r => (jk r).map (·, r) := by
    intro S
    induction S with
    | nil => rfl
    | cons r S ih => cases hr : jk r <;> simp [hr, ih]
  rw [joinSide, flatMap_ofList, h]

private theorem flatMap_partnerPairs (jkR : Row → Option Key) (j : Key) (l : Row) :
    ∀ SR : List Row, ((SR.filterMap fun r => (jkR r).map (·, r)).flatMap fun b =>
      if j = b.1 then [(j, l, b.2)] else []) = (SR.filter fun r => jkR r = some j).map fun r => (j, l, r)
  | [] => rfl
  | r :: SR => by
    have ih := flatMap_partnerPairs jkR j l SR
    cases hr : jkR r with
    | none => simp [hr, ih]
    | some j' =>
      by_cases hj : j = j'
      · subst hj; simp [hr, ih]
      · simp [hr, hj, ih, Ne.symm hj]

/-- `join_core` of the two sides pairs every row with its partners. -/
theorem joinLeftRight_ofList (jkL jkR : Row → Option Key) (SL SR : List Row) :
    joinLeftRight (ofList (SL.filterMap fun l => (jkL l).map (·, l)))
      (ofList (SR.filterMap fun r => (jkR r).map (·, r))) = ofList (matchedPairs jkL jkR SL SR) := by
  rw [joinLeftRight, joinCore_ofList]
  congr 1
  induction SL with
  | nil => rfl
  | cons l SL ih =>
    cases hl : jkL l with
    | none => simp [matchedPairs, hl] at ih ⊢; exact ih
    | some j =>
      simp only [matchedPairs, List.filterMap_cons, hl, Option.map_some', List.flatMap_cons] at ih ⊢
      rw [ih, flatMap_partnerPairs]

private theorem map_filterMap_joinKey (jk : Row → Option Key) (pad : Option Key → Row → Row) :
    ∀ S : List Row, (∀ a ∈ S, jk a ≠ none) →
      (S.filterMap fun a => (jk a).map (·, a)).map (fun x => pad (some x.1) x.2) =
        S.map fun a => pad (jk a) a
  | [], _ => rfl
  | a :: S, h => by
    obtain ⟨j, hj⟩ := Option.ne_none_iff_exists'.1 (h a (List.mem_cons_self _ _))
    simp [hj, map_filterMap_joinKey jk pad S fun b hb => h b (List.mem_cons_of_mem _ hb)]

/-- A side's rows less the distinct matched ones, padded: its rows with no partner, each
once. -/
theorem outerSide_equiv (jkA jkB : Row → Option Key) {SA SB : List Row} (hSA : SA.Nodup)
    {P : List (Key × Row × Row)}
    (hP : ∀ x, x ∈ P ↔ x.2.1 ∈ SA ∧ x.2.2 ∈ SB ∧ jkA x.2.1 = some x.1 ∧ jkB x.2.2 = some x.1)
    (pad : Option Key → Row → Row) :
    Equiv (ZSet.map (fun x => pad x.1 x.2)
        (outerSide (ofList (SA.map fun a => (jkA a, a))) (ofList (P.map fun x => (x.1, x.2.1)))))
      (ofList ((SA.filter fun a => partners jkA jkB SB a = []).map fun a => pad (jkA a) a)) := by
  set T := (SA.filter fun a => partners jkA jkB SB a ≠ []).filterMap fun a => (jkA a).map (·, a)
  -- the distinct matched rows are the rows with a partner, with their join key
  have hD : (P.map fun x => (x.1, x.2.1)).dedup.Perm T := by
    refine (List.perm_ext_iff_of_nodup (List.nodup_dedup _) ((hSA.filter _).filterMap ?_)).2 ?_
    · intro a a' y ha ha'
      simp only [Option.mem_def, Option.map_eq_some'] at ha ha'
      obtain ⟨_, -, rfl⟩ := ha; obtain ⟨_, -, h⟩ := ha'
      exact (congrArg Prod.snd h).symm
    · rintro ⟨j, a⟩
      simp only [List.mem_dedup, List.mem_map, hP, T, List.mem_filterMap, List.mem_filter,
        Option.map_eq_some', Prod.mk.injEq, ne_eq, List.eq_nil_iff_forall_not_mem, mem_partners,
        decide_eq_true_eq]
      constructor
      · rintro ⟨⟨j', a', b⟩, ⟨ha, hb, hja, hjb⟩, rfl, rfl⟩
        exact ⟨a', ⟨ha, fun h => h b ⟨hb, j', hja, hjb⟩⟩, j', hja, rfl, rfl⟩
      · rintro ⟨a', ⟨ha, hp⟩, j', hja, rfl, rfl⟩
        push_neg at hp
        obtain ⟨b, hb, j'', hj1, hj2⟩ := hp
        rw [hja, Option.some.injEq] at hj1; subst hj1
        exact ⟨(j', a', b), ⟨ha, hb, hja, hj2⟩, rfl, rfl⟩
  have hT : T.map (fun x => pad (some x.1) x.2) =
      (SA.filter fun a => partners jkA jkB SB a ≠ []).map fun a => pad (jkA a) a :=
    map_filterMap_joinKey jkA pad _ fun a ha h => by
      simp only [List.mem_filter, decide_eq_true_eq] at ha
      exact ha.2 (by simp [partners, h])
  have heq : ZSet.map (fun x => pad x.1 x.2)
      (outerSide (ofList (SA.map fun a => (jkA a, a))) (ofList (P.map fun x => (x.1, x.2.1)))) =
      ofList (SA.map fun a => pad (jkA a) a) ++ negate (ZSet.map (fun x => pad (some x.1) x.2)
        (distinct (ofList (P.map fun x => (x.1, x.2.1))))) := by
    simp [outerSide, ZSet.map, negate, ofList, Function.comp_def]
  rw [heq]
  refine ((ZSet.Equiv.refl _).append ((distinct_ofList _).map _).negate).trans ?_
  rw [map_ofList]
  refine equiv_ofList_sub ?_
  have hm : (SA.filter fun a => partners jkA jkB SB a ≠ []) =
      SA.filter fun a => !decide (partners jkA jkB SB a = []) := by simp
  have h1 := (hD.map (fun x => pad (some x.1) x.2)).trans (List.Perm.of_eq (hT.trans (by rw [hm])))
  have h2 := ((List.filter_append_perm (fun a => decide (partners jkA jkB SB a = [])) SA).map
    fun a => pad (jkA a) a).symm
  rw [List.map_append] at h2
  exact h2.trans (List.Perm.append_left _ h1.symm)

theorem outerSide_congr {s s' : ZSet (Option Key × Row)} {m m' : ZSet (Key × Row)}
    (hs : ZSet.Equiv s s') (hm : ZSet.Equiv m m') : ZSet.Equiv (outerSide s m) (outerSide s' m') :=
  hs.append (hm.distinct.negate.map _)

/-- The join's rows depend only on the content of its sides. -/
theorem joinRows_congr (h : KeyHash) (jt : JoinType) {lj lj' rj rj' : ZSet (Option Key × Row)}
    (hl : ZSet.Equiv lj lj') (hr : ZSet.Equiv rj rj') :
    ZSet.Equiv (joinRows h jt lj rj) (joinRows h jt lj' rj') := by
  have hjlr : ZSet.Equiv (joinLeftRight (joinSide lj) (joinSide rj))
      (joinLeftRight (joinSide lj') (joinSide rj')) := Equiv.joinCore (hl.flatMap _) (hr.flatMap _)
  simp only [joinRows]
  refine ((hjlr.map _).append ?_).append ?_ <;> split_ifs
  · exact (outerSide_congr hl (hjlr.map _)).map _
  · exact ZSet.Equiv.refl _
  · exact (outerSide_congr hr (hjlr.map _)).map _
  · exact ZSet.Equiv.refl _

/-- On sides that hold every row at most once, the join's rows are the matched pairs and,
for each outer side, its rows with no partner, padded. -/
theorem joinRows_equiv (h : KeyHash) (jt : JoinType) (jkL jkR : Row → Option Key) {L R : ZSet Row}
    (hL : IsSet L) (hR : IsSet R) :
    ZSet.Equiv (joinRows h jt (ZSet.map (fun r => (jkL r, r)) L) (ZSet.map (fun r => (jkR r, r)) R))
      (ofList (joinSpec h jt jkL jkR (support L) (support R))) := by
  refine (joinRows_congr h jt (hL.equiv_ofList.map _) (hR.equiv_ofList.map _)).trans ?_
  have hP' : ∀ x, x ∈ (matchedPairs jkL jkR (support L) (support R)).map
      (fun x => (x.1, x.2.2, x.2.1)) ↔ x.2.1 ∈ support R ∧ x.2.2 ∈ support L ∧
        jkR x.2.1 = some x.1 ∧ jkL x.2.2 = some x.1 := by
    rintro ⟨j, r, l⟩
    simp only [List.mem_map]
    constructor
    · rintro ⟨⟨j', l', r'⟩, hm, he⟩
      simp only [Prod.mk.injEq] at he
      obtain ⟨rfl, rfl, rfl⟩ := he
      obtain ⟨h1, h2, h3, h4⟩ := mem_matchedPairs.1 hm
      exact ⟨h2, h1, h4, h3⟩
    · rintro ⟨h1, h2, h3, h4⟩
      exact ⟨(j, l, r), mem_matchedPairs.2 ⟨h2, h1, h4, h3⟩, rfl⟩
  have hR' : (matchedPairs jkL jkR (support L) (support R)).map (fun x => (x.1, x.2.2)) =
      ((matchedPairs jkL jkR (support L) (support R)).map fun x => (x.1, x.2.2, x.2.1)).map
        fun x => (x.1, x.2.1) := by simp [Function.comp_def]
  simp only [map_ofList, joinRows, joinSide_ofList, joinLeftRight_ofList, joinSpec, ofList_append]
  refine ((ZSet.Equiv.refl _).append ?_).append ?_ <;> split_ifs
  · exact outerSide_equiv jkL jkR (nodup_support L) (fun x => mem_matchedPairs) _
  · exact ZSet.Equiv.refl _
  · rw [hR']
    exact outerSide_equiv jkR jkL (nodup_support R) hP' _
  · exact ZSet.Equiv.refl _

/-- Where every row's condition columns extract, every row gets its join key, and only
`ErrorInJoin` is logged. -/
theorem withJoinKey_eq (h : KeyHash) (paths : List ColumnPath) : ∀ z : ZSet Row,
    (∀ x ∈ z, ∃ parts, ColumnPath.extractAll paths x.1.1 x.1.2 = .ok parts) →
      ∃ log, withJoinKey h paths z = .ok (ZSet.map (fun r => (joinKeyOf h paths r, r)) z, log) ∧
        ∀ e ∈ log, e = .errorInJoin
  | [], _ => ⟨[], rfl, by simp⟩
  | (r, d) :: z, hext => by
    obtain ⟨parts, hp⟩ := hext (r, d) (List.mem_cons_self _ _)
    obtain ⟨log, hz, hlog⟩ := withJoinKey_eq h paths z fun x hx => hext x (List.mem_cons_of_mem _ hx)
    have hj : extractJoinKey h paths r =
        .ok (joinKeyOf h paths r, if parts.contains .error then [.errorInJoin] else []) := by
      simp only [joinKeyOf, extractJoinKey, hp, ok_bind]
      split <;> rfl
    refine ⟨_, by rw [withJoinKey, hj, ok_bind, hz, ok_bind]; rfl, fun e he => ?_⟩
    rcases List.mem_append.1 he with he | he
    · split at he
      · exact List.mem_singleton.1 he
      · exact absurd he (List.not_mem_nil _)
    · exact hlog e he

/-- An inner or outer join of two tables that hold every row at most once: one row for
every pair of a left and a right row with equal join keys, and for each outer side one row
padded with `None` for every row of the side with no partner, including the rows with
`Value::Error` in their condition, which have no join key. -/
theorem joinTables_relational (h : KeyHash) (jt : JoinType)
    (hjt : jt = .inner ∨ jt = .leftOuter ∨ jt = .rightOuter ∨ jt = .fullOuter)
    (pathsL pathsR : List ColumnPath) (hlen : pathsL.length = pathsR.length)
    (le : Value → Value → Bool) (L R : ZSet Row) (hL : IsSet L) (hR : IsSet R)
    (hextL : ∀ x ∈ L, ∃ parts, ColumnPath.extractAll pathsL x.1.1 x.1.2 = .ok parts)
    (hextR : ∀ x ∈ R, ∃ parts, ColumnPath.extractAll pathsR x.1.1 x.1.2 = .ok parts) :
    ∃ out log, joinTables h jt pathsL pathsR le L R = .ok (out, log) ∧
      ZSet.Equiv out (ofList (joinSpec h jt (joinKeyOf h pathsL) (joinKeyOf h pathsR)
        (support L) (support R))) := by
  obtain ⟨logL, hl, -⟩ := withJoinKey_eq h pathsL L hextL
  obtain ⟨logR, hr, -⟩ := withJoinKey_eq h pathsR R hextR
  refine ⟨_, logL ++ logR, ?_, joinRows_equiv h jt _ _ hL hR⟩
  rcases hjt with rfl | rfl | rfl | rfl <;>
    simp [joinTables, hlen, hl, hr]

/-- Hashes that give every key and every join key `0`. -/
def zeroHash : KeyHash := ⟨fun _ => 0, fun a _ => a, fun _ => 0⟩

theorem whole_extracts (S : List Row) :
    ∀ x ∈ ofList S, ∃ parts, ColumnPath.extractAll [ColumnPath.whole] x.1.1 x.1.2 = .ok parts :=
  fun x _ => ⟨[x.1.2], rfl⟩

theorem joinTables_relational_fullOuter :
    (JoinType.fullOuter = .inner ∨ JoinType.fullOuter = .leftOuter ∨
      JoinType.fullOuter = .rightOuter ∨ JoinType.fullOuter = .fullOuter) ∧
    [ColumnPath.whole].length = [ColumnPath.whole].length ∧
    IsSet (ofList [((1 : Key), Value.int 1)]) ∧ IsSet (ofList [((2 : Key), Value.int 2)]) ∧
    ∃ out log, joinTables zeroHash .fullOuter [ColumnPath.whole] [ColumnPath.whole] (fun _ _ => true)
        (ofList [(1, .int 1)]) (ofList [(2, .int 2)]) = .ok (out, log) ∧
      ZSet.Equiv out (ofList (joinSpec zeroHash .fullOuter (joinKeyOf zeroHash [ColumnPath.whole])
        (joinKeyOf zeroHash [ColumnPath.whole]) (support (ofList [(1, .int 1)]))
        (support (ofList [(2, .int 2)])))) :=
  ⟨by decide, rfl, isSet_ofList (by decide), isSet_ofList (by decide),
    joinTables_relational zeroHash .fullOuter (by decide) [ColumnPath.whole] [ColumnPath.whole] rfl _ _ _
      (isSet_ofList (by decide)) (isSet_ofList (by decide)) (whole_extracts _)
      (whole_extracts _)⟩

section LeftKeys
variable {h : KeyHash} {jt : JoinType} {jkL jkR : Row → Option Key} {SL SR : List Row}

variable {L : ZSet Row}

end LeftKeys

end Join
end Pathway
