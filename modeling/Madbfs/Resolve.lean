/-
Paths that come from outside: the path of a FUSE request below a custom root,
and the target of a symbolic link.  The first is a concatenation of strings,
the second goes through the components; both end in the parser of `PathBuf`.
-/
import Madbfs.PathBuf

namespace Madbfs

namespace PathBuf

open Bytes Segments Util StringSplitter
open Rpc (Slice)

/-- `ok_or`. -/
def okOr {α : Type} (value : Option α) (err : Errc) : Except Errc α :=
  match value with
  | some value => .ok value
  | none => .error err

/-- The string that `create_path` assembles below a root that is not `/`. -/
def rootedStr (root : PathBuf) (path : List Char) : List Char :=
  (if root.str.getLast? = some '/' then root.str else root.str ++ ['/']) ++ path

/-- `Madbfs::create_path`.  `comps` is what an earlier call left in its
buffer. -/
def createPath (root : PathBuf) (comps : List Slice) (path : List Char) :
    Except Errc PathBuf :=
  if root.isRoot then okOr (createWith comps path).1 Errc.invalidArgument
  else okOr (createWith comps (rootedStr root path)).1 Errc.invalidArgument

/-- An iteration of the loop of `create_path2`. -/
def createPath2Entry (root : PathBuf) (comps : List Slice) (path : List Char) :
    Except Errc PathBuf :=
  if root.isRoot then
    match (createWith comps path).1 with
    | none => .error Errc.invalidArgument
    | some path => .ok path
  else
    match (createWith comps (rootedStr root path)).1 with
    | none => .error Errc.invalidArgument
    | some path => .ok path

/-- `Madbfs::create_path2`. -/
def createPath2 (root : PathBuf) (comps1 comps2 : List Slice)
    (path1 path2 : List Char) : Except Errc (PathBuf × PathBuf) := do
  let result1 ← createPath2Entry root comps1 path1
  let result2 ← createPath2Entry root comps2 path2
  return (result1, result2)

/-- The function that `resolve` calls for each part of a path. -/
def resolvePart (parents : List (List Char)) (str : List Char) :
    List (List Char) :=
  if str = ['.'] then parents
  else if str = ['.', '.'] then
    if parents.isEmpty then parents else parents.dropLast
  else parents ++ [str]

/-- `path::resolve`.  It has no result where its assertion fails, or where the
`value` at its end would throw. -/
def resolve (parent : PathBuf) (path : List Char) : Option PathBuf :=
  if path.isEmpty then none
  else
    let parents := if path.head? ≠ some '/' then split parent.str (.char '/') else []
    let parents := whileNext resolvePart parents ⟨path, .char '/', 0⟩
    if parents.isEmpty then some {}
    else
      createBuf (parents.foldl (fun resolved path => resolved ++ '/' :: path) [])

section Root

variable {root : PathBuf} {p q : List Char}

theorem createPath2Entry_eq (root : PathBuf) (comps : List Slice)
    (path : List Char) :
    createPath2Entry root comps path = createPath root comps path := by
  rw [createPath2Entry, createPath]
  split_ifs
  · cases (createWith comps path).1 <;> rfl
  · cases (createWith comps (rootedStr root path)).1 <;> rfl

/-- The string that is parsed, for any root. -/
theorem createPath_ofBody {body : List Char} (htrimmed : Trimmed '/' body)
    (comps : List Slice) (hp : p.head? = some '/') :
    createPath (ofBody body) comps p =
      .ok (ofBody (trim '/' (if body = [] then p else '/' :: body ++ '/' :: p))) := by
  rw [createPath]
  by_cases hempty : body = []
  · have hroot : (ofBody body).isRoot = true :=
      (isRoot_ofBody htrimmed).mpr hempty
    rw [if_pos hroot, if_pos hempty, createWith_eq, if_pos hp]
    rfl
  · have hroot : ¬ (ofBody body).isRoot = true :=
      fun h => hempty ((isRoot_ofBody htrimmed).mp h)
    have hlast : (ofBody body).str.getLast? ≠ some '/' := by
      rw [ofBody, ← List.singleton_append,
        List.getLast?_append_of_ne_nil _ hempty]
      exact htrimmed.last
    have hstr : rootedStr (ofBody body) p = '/' :: body ++ '/' :: p := by
      rw [rootedStr, if_neg hlast]
      simp [ofBody]
    have hhead : ('/' :: body ++ '/' :: p).head? = some '/' := rfl
    rw [if_neg hroot, if_neg hempty, hstr, createWith_eq, if_pos hhead]
    rfl

theorem iter_createPath {body : List Char} (p : List Char) :
    (ofBody (trim '/' (if body = [] then p else '/' :: body ++ '/' :: p))).iter =
      (ofBody body).iter ++ segments '/' p := by
  rw [iter_ofBody, segments_trim, iter_ofBody]
  split_ifs with hempty
  · rw [hempty]
    rfl
  · rw [segments_append_sep]
    exact congrArg (· ++ _) (segments_append_sep [] body)

/-- Without two slashes in a row, a string that starts with one is given by
what is left of it without those at its ends. -/
theorem eq_trim_of_alone (hp : p.head? = some '/')
    (halone : ¬ ['/', '/'] <:+: p) :
    ∃ m, p = '/' :: (trim '/' p ++ List.replicate m '/') ∧
      (trim '/' p = [] → m = 0) := by
  rcases trim_cases hp with ⟨htrim, m, hs⟩ | ⟨n, m, c, rest, htrim, hc, hs⟩
  · cases m with
    | zero => exact ⟨0, by rw [htrim]; exact hs, fun _ => rfl⟩
    | succ m =>
        exfalso
        apply halone
        rw [hs, List.replicate_succ]
        exact ⟨[], List.replicate m '/', rfl⟩
  · cases n with
    | zero =>
        refine ⟨m, ?_, fun h => ?_⟩
        · rw [htrim]
          exact hs
        · rw [htrim] at h
          cases h
    | succ n =>
        exfalso
        apply halone
        rw [hs, List.replicate_succ, List.replicate_succ]
        exact ⟨[], _, rfl⟩

/-- The body of a path below a root, of which the middle has two slashes. -/
def belowRoot (body rest : List Char) : List Char :=
  if body = [] then rest
  else if rest = [] then body
  else body ++ '/' :: '/' :: rest

theorem trim_rooted {body : List Char} (htrimmed : Trimmed '/' body)
    (hp : p.head? = some '/') (halone : ¬ ['/', '/'] <:+: p) :
    trim '/' (if body = [] then p else '/' :: body ++ '/' :: p) =
      belowRoot body (trim '/' p) := by
  rw [belowRoot]
  split_ifs with hbody hrest
  · rfl
  · obtain ⟨m, hm, hzero⟩ := eq_trim_of_alone hp halone
    have hstr : '/' :: body ++ '/' :: p =
        List.replicate 1 '/' ++ (body ++ List.replicate 2 '/') := by
      rw [hm, hzero hrest, hrest]
      rfl
    rw [hstr, trim_pad htrimmed]
  · obtain ⟨m, hm, -⟩ := eq_trim_of_alone hp halone
    have hbetween : Trimmed '/' (body ++ '/' :: '/' :: trim '/' p) := by
      refine ⟨?_, ?_⟩
      · rw [List.head?_append_of_ne_nil body hbody]
        exact htrimmed.head
      · rw [List.getLast?_append_of_ne_nil _ (List.cons_ne_nil _ _),
          List.getLast?_cons_cons]
        rw [← List.singleton_append, List.getLast?_append_of_ne_nil _ hrest]
        exact (trimmed_trim '/' p).last
    have hstr : '/' :: body ++ '/' :: p =
        List.replicate 1 '/' ++
          (body ++ '/' :: '/' :: trim '/' p ++ List.replicate m '/') := by
      conv_lhs => rw [hm]
      simp
    rw [hstr, trim_pad hbetween]

/-- Where no slash is repeated, the components give the string. -/
theorem trim_of_segments (hp : p.head? = some '/') (hq : q.head? = some '/')
    (hpalone : ¬ ['/', '/'] <:+: p) (hqalone : ¬ ['/', '/'] <:+: q)
    (hsegs : segments '/' p = segments '/' q) : trim '/' p = trim '/' q := by
  have hjoined : ∀ {s : List Char}, s.head? = some '/' →
      ¬ ['/', '/'] <:+: s → trim '/' s ≠ [] →
      joined '/' (segments '/' s) = '/' :: trim '/' s := by
    intro s hs halone hne
    obtain ⟨m, hm, -⟩ := eq_trim_of_alone hs halone
    rw [← segments_trim]
    apply joined_segments (trimmed_trim '/' s) hne
    intro hinfix
    apply halone
    rw [hm]
    exact hinfix.trans ⟨['/'], List.replicate m '/', rfl⟩
  have hempty : ∀ {s : List Char}, trim '/' s = [] ↔ segments '/' s = [] := by
    intro s
    have hslices : slices 1 (trim '/' s) = [] ↔ trim '/' s = [] :=
      slices_eq_nil (trimmed_trim '/' s)
    rw [← hslices, slices, List.map_eq_nil_iff, spans_eq_nil, segments_trim]
  by_cases hnil : trim '/' p = []
  · rw [hnil, hempty.mpr (hsegs ▸ hempty.mp hnil)]
  · have hnil' : trim '/' q ≠ [] := by
      intro h
      exact hnil (hempty.mpr (hsegs ▸ hempty.mp h))
    have heq := hjoined hp hpalone hnil
    rw [hsegs, hjoined hq hqalone hnil'] at heq
    exact (List.cons.inj heq).2.symm

/-- A path below a custom root has the components of the root and its own,
`create_path2` gives what `create_path` does, and a file has one spelling. -/
theorem createPath_is_prefix (hroot : Built root) (hp : p.head? = some '/')
    (hq : q.head? = some '/') (comps comps1 comps2 : List Slice) :
    ∃ a b,
      createPath root comps p = .ok a ∧ createPath root comps q = .ok b ∧
      a.iter = root.iter ++ segments '/' p ∧
      b.iter = root.iter ++ segments '/' q ∧
      createPath2 root comps1 comps2 p q = .ok (a, b) ∧
      (segments '/' p = segments '/' q → ¬ ['/', '/'] <:+: p →
        ¬ ['/', '/'] <:+: q → a.str = b.str) := by
  obtain ⟨body, htrimmed, rfl⟩ := hroot.exists_body
  refine ⟨_, _, createPath_ofBody htrimmed comps hp,
    createPath_ofBody htrimmed comps hq, iter_createPath p, iter_createPath q,
    ?_, ?_⟩
  · rw [createPath2, createPath2Entry_eq, createPath2Entry_eq,
      createPath_ofBody htrimmed comps1 hp, createPath_ofBody htrimmed comps2 hq]
    rfl
  · intro hsegs hpalone hqalone
    rw [trim_rooted htrimmed hp hpalone, trim_rooted htrimmed hq hqalone,
      trim_of_segments hp hq hpalone hqalone hsegs]

/-- Two spellings of a file below `/sdcard`. -/
theorem createPath_is_prefix_sdcard :
    ∃ a b,
      createPath (ofBody "sdcard".toList) [] "/a".toList = .ok a ∧
      createPath (ofBody "sdcard".toList) [] "/a/".toList = .ok b ∧
      a.str = b.str := by
  have hbuilt : Built (ofBody "sdcard".toList) := by
    apply Built.createBuf (s := "/sdcard".toList)
    rw [createBuf_eq]
    rfl
  obtain ⟨a, b, ha, hb, -, -, -, hstr⟩ := createPath_is_prefix hbuilt
    (p := "/a".toList) (q := "/a/".toList) rfl rfl [] [] []
  exact ⟨a, b, ha, hb, hstr rfl (by decide) (by decide)⟩

end Root

section Resolve

/-- The path with some components, one slash before each. -/
def spelled (comps : List (List Char)) : PathBuf :=
  ofBody (['/'].intercalate comps)

theorem spelled_spec {comps : List (List Char)}
    (hcomps : ∀ comp ∈ comps, IsSegment '/' comp) :
    (spelled comps).iter = comps ∧ segments '/' (spelled comps).str = comps ∧
    (comps ≠ [] → createBuf (joined '/' comps) = some (spelled comps)) := by
  cases comps with
  | nil => exact ⟨rfl, rfl, fun h => absurd rfl h⟩
  | cons comp comps =>
      have hjoined : joined '/' (comp :: comps) = (spelled (comp :: comps)).str :=
        joined_eq_intercalate (List.cons_ne_nil comp comps)
      have hbody : ['/'].intercalate (comp :: comps) =
          comp ++ joined '/' comps := by
        have hcons : joined '/' (comp :: comps) =
            '/' :: (comp ++ joined '/' comps) :=
          rfl
        rw [hcons] at hjoined
        exact (List.cons.inj hjoined).2.symm
      have htrimmed : Trimmed '/' (['/'].intercalate (comp :: comps)) := by
        rw [hbody]
        exact trimmed_append_joined (hcomps comp List.mem_cons_self)
          fun other hother => hcomps other (List.mem_cons_of_mem comp hother)
      have hsegs := segments_joined hcomps
      rw [hjoined] at hsegs ⊢
      refine ⟨?_, hsegs, fun _ => createBuf_ofBody htrimmed⟩
      rw [spelled, iter_ofBody]
      exact (segments_append_sep [] _).symm.trans hsegs

/-- A component that `resolve` keeps. -/
def Plain (comp : List Char) : Prop :=
  comp ≠ ['.'] ∧ comp ≠ ['.', '.']

/-- One component of a path after the others: a dot changes nothing, two dots
remove the last component if there is one. -/
def normalise (comps : List (List Char)) (comp : List Char) :
    List (List Char) :=
  if comp = ['.'] then comps
  else if comp = ['.', '.'] then comps.dropLast
  else comps ++ [comp]

theorem resolvePart_eq : resolvePart = normalise := by
  funext comps comp
  rw [resolvePart, normalise]
  cases comps <;> rfl

/-- What holds of the components of both paths holds of the result. -/
theorem normalise_foldl {P : List Char → Prop} {comps start : List (List Char)}
    (hcomps : ∀ comp ∈ comps, Plain comp → P comp)
    (hstart : ∀ comp ∈ start, P comp) :
    ∀ comp ∈ comps.foldl normalise start, P comp := by
  induction comps generalizing start with
  | nil => exact hstart
  | cons comp comps ih =>
      rw [List.foldl_cons]
      apply ih fun other hother => hcomps other (List.mem_cons_of_mem comp hother)
      rw [normalise]
      split_ifs with hdot hdots
      · exact hstart
      · intro other hother
        exact hstart other (List.dropLast_subset start hother)
      · intro other hother
        rcases List.mem_append.mp hother with hold | hnew
        · exact hstart other hold
        · rw [List.mem_singleton] at hnew
          rw [hnew]
          exact hcomps comp List.mem_cons_self ⟨hdot, hdots⟩

/-- Components without dots are appended. -/
theorem normalise_plain {comps : List (List Char)}
    (hplain : ∀ comp ∈ comps, Plain comp) (start : List (List Char)) :
    comps.foldl normalise start = start ++ comps := by
  induction comps generalizing start with
  | nil => simp
  | cons comp comps ih =>
      have hcomp := hplain comp List.mem_cons_self
      rw [List.foldl_cons, normalise, if_neg hcomp.1, if_neg hcomp.2,
        ih fun other hother => hplain other (List.mem_cons_of_mem comp hother)]
      simp

/-- What `resolve` starts from. -/
def base (parent : PathBuf) (path : List Char) : List (List Char) :=
  if path.head? = some '/' then [] else segments '/' parent.str

theorem isSegment_resolved (parent : PathBuf) (path : List Char) :
    ∀ comp ∈ (segments '/' path).foldl normalise (base parent path),
      IsSegment '/' comp := by
  apply normalise_foldl
  · exact fun comp hcomp _ => isSegment_of_mem hcomp
  · intro comp hcomp
    rw [base] at hcomp
    split_ifs at hcomp
    · cases hcomp
    · exact isSegment_of_mem hcomp

/-- The result of `resolve` is spelled from its components. -/
theorem resolve_eq (parent : PathBuf) {path : List Char} (hne : path ≠ []) :
    resolve parent path =
      some (spelled ((segments '/' path).foldl normalise (base parent path))) := by
  have hbase : (if path.head? ≠ some '/' then split parent.str (.char '/') else []) =
      base parent path := by
    rw [split_eq, base]
    exact ite_not _ _ _
  have hwritten : ∀ comps : List (List Char),
      comps.foldl (fun resolved path => resolved ++ '/' :: path) [] =
        joined '/' comps := by
    intro comps
    rw [List.foldl_append_eq_append, List.nil_append, ← List.flatMap_def]
    rfl
  obtain ⟨-, -, hcreate⟩ := spelled_spec (isSegment_resolved parent path)
  rw [resolve, if_neg (by simpa using hne), hbase, resolvePart_eq]
  dsimp only
  rw [whileNext_eq, List.drop_zero]
  split_ifs with hempty
  · rw [List.isEmpty_iff] at hempty
    rw [hempty]
    rfl
  · rw [List.isEmpty_iff] at hempty
    rw [hwritten, hcreate hempty]

/-- The result of `resolve` resolves to itself, from anywhere. -/
theorem resolve_spelled {comps : List (List Char)}
    (hcomps : ∀ comp ∈ comps, IsSegment '/' comp)
    (hplain : ∀ comp ∈ comps, Plain comp) (q : PathBuf) :
    resolve q (spelled comps).str = some (spelled comps) := by
  obtain ⟨-, hsegs, -⟩ := spelled_spec hcomps
  have hbase : base q (spelled comps).str = [] := by
    rw [base]
    exact if_pos rfl
  rw [resolve_eq q (by simp [spelled, ofBody]), hsegs, hbase,
    normalise_plain hplain, List.nil_append]

/-- Two paths one after the other. -/
theorem resolve_append (parent : PathBuf) {a b : List Char} (ha : a ≠ [])
    (hne : b ≠ []) (hb : b.head? ≠ some '/') :
    resolve parent (a ++ '/' :: b) =
      (resolve parent a).bind fun r => resolve r b := by
  obtain ⟨-, hsegs, -⟩ := spelled_spec (isSegment_resolved parent a)
  have hbase : base parent (a ++ '/' :: b) = base parent a := by
    rw [base, base, List.head?_append_of_ne_nil a ha]
  rw [resolve_eq parent (by simp), resolve_eq parent ha, Option.bind_some,
    resolve_eq _ hne, hbase, segments_append_sep, List.foldl_append]
  conv_rhs => rw [base, if_neg hb, hsegs]

/-- `resolve` is lexical normalisation, and so agrees with itself on paths in
two parts. -/
theorem resolve_is_normalisation {parent : PathBuf} (hparent : Built parent)
    (hplain : ∀ comp ∈ parent.iter, Plain comp) {p : List Char} (hp : p ≠ []) :
    (∃ r, resolve parent p = some r ∧
      r.str = '/' :: ['/'].intercalate r.iter ∧
      (∀ comp ∈ r.iter, Plain comp) ∧
      r.iter = (segments '/' p).foldl normalise
        (if p.head? = some '/' then [] else parent.iter) ∧
      ∀ q, resolve q r.str = some r) ∧
    ∀ a b, a ≠ [] → b ≠ [] → b.head? ≠ some '/' →
      resolve parent (a ++ '/' :: b) =
        (resolve parent a).bind fun r => resolve r b := by
  obtain ⟨body, htrimmed, rfl⟩ := hparent.exists_body
  have hstr : segments '/' (ofBody body).str = (ofBody body).iter := by
    rw [iter_ofBody]
    exact segments_append_sep [] body
  have hbase : base (ofBody body) p =
      if p.head? = some '/' then [] else (ofBody body).iter := by
    rw [base, hstr]
  have hsegs := isSegment_resolved (ofBody body) p
  have hkept : ∀ comp ∈ (segments '/' p).foldl normalise (base (ofBody body) p),
      Plain comp := by
    apply normalise_foldl fun comp _ h => h
    intro comp hcomp
    rw [hbase] at hcomp
    split_ifs at hcomp
    · cases hcomp
    · exact hplain comp hcomp
  obtain ⟨hiter, -, -⟩ := spelled_spec hsegs
  refine ⟨⟨_, resolve_eq (ofBody body) hp, ?_, ?_, ?_, ?_⟩, ?_⟩
  · rw [hiter]
    rfl
  · rw [hiter]
    exact hkept
  · rw [hiter, hbase]
  · exact resolve_spelled hsegs hkept
  · intro a b ha hne hb
    exact resolve_append (ofBody body) ha hne hb

/-- Two dots above the root. -/
theorem resolve_is_normalisation_above :
    ∃ r, resolve {} "../../a/./b".toList = some r ∧
      r.iter = [['a'], ['b']] := by
  have hbuilt : Built {} := by
    apply Built.createBuf (s := ['/'])
    rw [createBuf_eq]
    rfl
  obtain ⟨⟨r, hr, -, -, hiter, -⟩, -⟩ := resolve_is_normalisation hbuilt
    (fun comp hcomp => by cases hcomp) (p := "../../a/./b".toList) (by decide)
  refine ⟨r, hr, ?_⟩
  rw [hiter]
  rfl

end Resolve

end PathBuf

end Madbfs
