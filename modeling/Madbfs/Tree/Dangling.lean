/-
Runs of the filesystem go wrong where an operation dangles, and nowhere else.
-/
import Madbfs.Cache.Bijection
import Madbfs.Tree.Severed

namespace Madbfs

namespace Fs

open Program FileTree

variable {α β : Type} {s t : FileTree} {n current : Id} {env : Env}
  {path : Path} {flags fd : Nat}

theorem Tame.returns {x : Fs α} {f : α → Value} (hx : Tame x s) :
    Tame (x >>= fun a => Pure.pure (f a)) s :=
  Tame.bind hx fun _ _ _ => Tame.pure

section Walks

theorem tame_traverseFrom (h : AtRest s) (hin : s.InTree current) :
    Tame (traverseFrom current path) s := by
  induction path generalizing current with
  | nil => exact Tame.pure h.caching
  | cons name rest ih =>
      apply Tame.bind_traverseNode h hin
      exact fun c hmem => ih (Below.child hin hmem)

theorem AtRest.bind_traverse {f : Id → Fs β} (h : AtRest s)
    (hf : ∀ n, s.InTree n → Tame (f n) s) : Tame (traverse path >>= f) s := by
  refine Tame.bind (Surely.bind_of_ok (state_apply s)
    (tame_traverseFrom h .root)) ?_
  intro n t hrun _
  obtain ⟨rfl, hresolve⟩ := traverse_cases hrun
  exact hf n (inTree_of_resolve h.sound.tidy.wf (hresolve n rfl))

theorem tame_symlink {link : String} (h : AtRest s) :
    Tame (symlink env path link) s := by
  apply h.bind_traverse
  intro parent hin
  apply Tame.bind_asDirectory h.caching (h.isSome hin)
  intro hdir
  refine Surely.bind_require (fun _ => ?_) h.caching
  refine Surely.bind_of_ok (state_apply s) ?_
  apply surely_bind_alloc h hdir
  intro n s₁ hnode hc₁ hdir₁
  apply Tame.bind_insert hc₁ hdir₁ hnode
  · exact fun _ => Tame.pure (caching_apply hc₁ fun c hc => by cases hc)
  · intro _ _ hcontra
    cases hcontra

end Walks

section Lookups

theorem tame_getattrAt (h : s.Caching) (hlive : (s.nodes n).isSome) :
    Tame (getattrAt n) s := by
  apply Tame.bind_deref hlive
  intro node _
  cases node.file with
  | error err => exact Tame.fail h
  | _ => exact Tame.pure h

theorem tame_readlink (h : AtRest s) (hvalid : ∀ name ∈ path, ValidName name) :
    Tame (readlink env path) s := by
  apply h.bind_lookup hvalid
  intro n t _ ht hin
  apply Tame.bind_deref (ht.isSome hin)
  intro node _
  refine Surely.bind_ofExcept (fun link _ => ?_) fun _ _ => ht.caching
  cases link with
  | some target => exact Tame.pure ht.caching
  | none =>
      apply Tame.bind_request ht.caching
      intro target _
      exact Surely.bind_of_ok (edit_apply _ _) (Tame.pure ht.caching)

theorem tame_readdir (henv : env.Proper) (h : AtRest s)
    (hvalid : ∀ name ∈ path, ValidName name) : Tame (readdir env path) s := by
  apply h.bind_lookup hvalid
  intro dir t _ ht hin
  apply Tame.bind_asDirectory ht.caching (ht.isSome hin)
  exact fun hdir => tame_readdirAt henv ht hdir

/-- `mknod` and `mkdir`. -/
theorem tame_create {req : Req Unit} {file : File} (h : AtRest s)
    (hvalid : ∀ name ∈ path, ValidName name) :
    Tame (do
      let parent ← traverseOrBuild env path.parentPath
      let overwrite ← vacancy parent path.filename
      createAt env req file parent path overwrite) s := by
  apply h.bind_lookup (valid_parentPath hvalid)
  intro parent t _ ht hin
  apply Tame.bind_vacancy ht hin
  exact fun overwrite hdir => tame_createAt ht hdir

theorem tame_unlink (h : AtRest s) (hvalid : ∀ name ∈ path, ValidName name) :
    Tame (unlink env path) s := by
  apply h.bind_lookup (valid_parentPath hvalid)
  intro parent t _ ht hin
  apply Tame.bind_traverseNode ht hin
  intro n hmem
  apply Tame.bind_deref (ht.isSome (Below.child hin hmem))
  intro node _
  exact Surely.bind_require (fun _ => tame_unlinkAt ht hmem) ht.caching

theorem tame_rmdir (h : AtRest s) (hvalid : ∀ name ∈ path, ValidName name) :
    Tame (rmdir env path) s := by
  apply h.bind_lookup (valid_parentPath hvalid)
  intro parent t _ ht hin
  apply Tame.bind_traverseNode ht hin
  intro n hmem
  apply Tame.bind_asDirectory ht.caching (ht.isSome (Below.child hin hmem))
  intro _
  refine Surely.bind_of_ok (state_apply t) ?_
  refine Surely.bind_require (fun _ => ?_) ht.caching
  exact tame_rmdirAt ht.caching
    (isDir_of_lookup (ht.sound.tidy.wf.lookup_iff.mpr hmem))

theorem tame_utimens {atime mtime : Timespec} (h : AtRest s)
    (hvalid : ∀ name ∈ path, ValidName name) :
    Tame (utimens env path atime mtime) s := by
  apply h.bind_lookup hvalid
  intro n t _ ht hin
  apply Tame.bind_request ht.caching
  intro _ _
  have ht₁ := ht.clock (env.delay t.tick)
  apply Tame.bind_request ht₁.caching
  intro stat _
  exact tame_setStat ht₁.caching (ht.isSome hin)

theorem tame_truncate {size : Int} (htidies : env.Tidies) (h : AtRest s)
    (hvalid : ∀ name ∈ path, ValidName name) :
    Tame (truncate env path size) s := by
  apply h.bind_lookup hvalid
  intro n t _ ht hin
  have hlive := ht.isSome hin
  apply Tame.bind_deref hlive
  intro node _
  refine Surely.bind_ofExcept (fun _ _ => ?_) fun _ _ => ht.caching
  apply Tame.bind_request ht.caching
  intro _ _
  have hgentle : Gentle (do
      truncateCache env n node.stat.size size
      setSize n size
      refreshStat env n .omit .now) (t.apply (.clock (env.delay t.tick))) := by
    apply Gentle.bind (gentle_truncateCache htidies (ht.clock _).caching)
    intro _ u hu
    have hlive₁ : (u.nodes n).isSome := (hu.isSome n).trans hlive
    apply Gentle.bind (gentle_setSize hu.caching hlive₁)
    intro _ v hv
    exact gentle_refreshStat hv.caching ((hv.isSome n).trans hlive₁)
  exact hgentle.tame

theorem tame_open (h : AtRest s) (hvalid : ∀ name ∈ path, ValidName name) :
    Tame (Fs.open env path flags) s := by
  have hstore : ∀ n mode realFd (u : FileTree), u.Caching →
      Tame (storeHandle n mode realFd) u :=
    fun n mode realFd u hu => ⟨_, _, rfl, hu⟩
  apply h.bind_lookup hvalid
  intro n t _ ht hin
  apply Tame.bind_deref (ht.isSome hin)
  intro node _
  refine Surely.bind_ofExcept (fun _ _ => ?_) fun _ _ => ht.caching
  refine Surely.bind_of_ok (state_apply t) ?_
  cases hcache : t.cache with
  | none =>
      apply Tame.bind_request ht.caching
      exact fun realFd _ => hstore _ _ _ _ ht.caching
  | some c =>
      refine Surely.bind_of_ok (edit_apply _ _) ?_
      have ht' : (t.apply (.cache
          (c.hintOpen n path (accessMode flags)).1)).Caching := by
        intro c' hc'
        cases hc'
        exact (ht.caching c hcache).hintOpen n path (accessMode flags)
      exact Surely.bind_ofExcept (fun _ _ => hstore _ _ _ _ ht')
        fun _ _ => ht'

end Lookups

section Rename

variable {source target : Path}

theorem tame_renameCheck (h : AtRest s)
    (hvalid : ∀ name ∈ target, ValidName name) :
    Tame (renameCheck env target flags) s := by
  unfold renameCheck
  split_ifs
  · apply h.bind_lookup hvalid
    intro n t _ ht hin
    apply Tame.bind_deref (ht.isSome hin)
    intro node _
    cases node.file with
    | error err => exact Tame.fail ht.caching
    | _ => exact Tame.pure ht.caching
  · apply Tame.bind_outcome (h.tame_lookup hvalid)
    intro r t hrun _
    obtain ⟨ht, hin⟩ := h.looked hvalid hrun
    cases r with
    | error err => exact Tame.pure ht.caching
    | ok n =>
        apply Tame.bind_deref (ht.isSome (hin n rfl))
        intro node _
        unfold require
        split_ifs
        · exact Tame.pure ht.caching
        · exact Tame.fail ht.caching
  · exact Tame.pure h.caching

theorem AtRest.checked (h : AtRest s) (hvalid : ∀ name ∈ target, ValidName name)
    {r : Except Errc Unit}
    (hrun : renameCheck env target flags s = some (r, t)) : AtRest t :=
  ⟨(obeys_renameCheck_of (fun _ => sits_traverseOrBuild hvalid) h.sound _ _
    hrun).1 h.sound, (tame_renameCheck h hvalid).sat _ _ hrun⟩

/-- A node that is not the root has a parent. -/
theorem parentOf_run (h : AtRest s) (hvalid : ∀ name ∈ path, ValidName name)
    (hne : path ≠ [])
    (hrun : traverseOrBuild env path s = some (.ok n, t)) :
    ∃ p, parentOf n t = some (.ok p, t) := by
  obtain ⟨ht, hresolve⟩ := traverseOrBuild_at h.sound hvalid hrun
  obtain ⟨up, hway⟩ := ht.tidy.wf.way_of_resolve hresolve
  cases hway with
  | root => exact absurd rfl hne
  | @child _ dir _ _ _ hmem _ =>
      obtain ⟨node, hnode, -, hparent, -⟩ := ht.tidy.wf.listed hmem
      refine ⟨dir, ?_⟩
      unfold parentOf
      rw [bind_of_ok (deref_apply hnode), hparent]
      rfl

theorem tame_rename (h : AtRest s) (hsource : ∀ name ∈ source, ValidName name)
    (htarget : ∀ name ∈ target, ValidName name)
    (hfree : source ≠ [] → ∀ n fromParent toParent t,
      RenameLookups env s t n fromParent toParent source target flags →
      env.answer t.tick (.rename source target flags) = .ok () →
      ¬t.Severed fromParent toParent source target flags) :
    Tame (rename env source target flags) s := by
  refine Surely.bind_require (fun hne => ?_) h.caching
  have hne' : source ≠ [] := by
    rintro rfl
    cases hne
  apply h.bind_lookup hsource
  intro n s₁ hrun₁ h₁ _
  obtain ⟨fromParent, hparent⟩ := parentOf_run h hsource hne' hrun₁
  refine Surely.bind_of_ok hparent ?_
  apply h₁.bind_lookup (valid_parentPath htarget)
  intro toParent s₂ hrun₂ h₂ hin
  have hdir : Tame (asDirectory toParent) s₂ := by
    apply Tame.bind_deref (h₂.isSome hin)
    intro node _
    cases node.file.asDirectory with
    | ok list => exact Tame.pure h₂.caching
    | error err => exact Tame.fail h₂.caching
  apply Tame.bind hdir
  intro list s₃ hlist _
  have hsame := asDirectory_same hlist
  subst hsame
  apply Tame.bind (tame_renameCheck h₂ htarget)
  intro _ t hcheck _
  have ht := h₂.checked htarget hcheck
  exact tame_renameAt ht.caching ht.sound.tidy.wf (hfree hne' n fromParent
    toParent t ⟨s₁, s₃, list, hrun₁, hparent, hrun₂, hlist, hcheck⟩)

theorem rename_severed (h : AtRest s)
    (hsource : ∀ name ∈ source, ValidName name)
    (htarget : ∀ name ∈ target, ValidName name) (hne : source ≠ [])
    {fromParent toParent : Id}
    (hlookups : RenameLookups env s t n fromParent toParent source target flags)
    (hanswer : env.answer t.tick (.rename source target flags) = .ok ())
    (hsevered : t.Severed fromParent toParent source target flags) :
    rename env source target flags s = none := by
  obtain ⟨s₁, s₂, list, hrun₁, hparent, hrun₂, hlist, hcheck⟩ := hlookups
  have h₁ := (h.looked hsource hrun₁).1
  have h₂ := (h₁.looked (valid_parentPath htarget) hrun₂).1
  have ht := h₂.checked htarget hcheck
  have hrequire : require (!source.isEmpty) Errc.operationNotSupported s =
      some (.ok (), s) := by
    cases source with
    | nil => exact absurd rfl hne
    | cons name rest => rfl
  rw [rename, bind_of_ok hrequire, bind_of_ok hrun₁, bind_of_ok hparent,
    bind_of_ok hrun₂, bind_of_ok hlist, bind_of_ok hcheck,
    renameAt_severed ht.caching ht.sound.tidy.wf hanswer hsevered]

end Rename

section Copy

variable {inPath outPath : Path} {inFd outFd : Nat}

theorem AtRest.flushed (h : AtRest s) (htidies : env.Tidies)
    (hlost : ¬s.Astray (s.handles.find fd)) {r : Except Errc Unit}
    (hrun : flush env fd s = some (r, t)) : AtRest t ∧ Alike s t := by
  have halike := (gentle_flush htidies h.caching hlost).sat _ _ hrun
  exact ⟨⟨(quiet_flush allows_sitting h.sound _ _ hrun).1 h.sound,
    halike.caching⟩, halike⟩

theorem tame_copyFileRange {inOff outOff : Int} {size : Nat}
    (htidies : env.Tidies) (h : AtRest s)
    (hin : ¬s.Astray (s.handles.find inFd))
    (hout : ¬s.Astray (s.handles.find outFd)) :
    Tame (copyFileRange env inPath inFd inOff outPath outFd outOff size)
      s := by
  unfold copyFileRange copyLookup
  simp only [bind_assoc]
  apply Tame.bind_outcome (gentle_flush htidies h.caching hin).tame
  intro _ s₁ hrun₁ _
  obtain ⟨h₁, halike⟩ := h.flushed htidies hin hrun₁
  have hout₁ : ¬s₁.Astray (s₁.handles.find outFd) := by
    rw [halike.handles]
    exact fun hlost => hout (halike.astray hlost)
  apply Tame.bind_outcome (gentle_flush htidies h₁.caching hout₁).tame
  intro _ s₂ hrun₂ _
  have h₂ := (h₁.flushed htidies hout₁ hrun₂).1
  apply h₂.bind_traverse
  intro inNode hinNode
  apply h₂.bind_traverse
  intro outNode houtNode
  refine Surely.bind_of_ok (pure_apply _ _) ?_
  apply Tame.bind_request h₂.caching
  intro copied _
  have h₃ := h₂.clock (env.delay s₂.tick)
  apply Tame.bind_request h₃.caching
  intro stat _
  have h₄ := h₃.clock
    (env.delay (s₂.apply (.clock (env.delay s₂.tick))).tick)
  have hinLive := h₄.isSome (n := inNode) hinNode
  have houtLive := h₄.isSome (n := outNode) houtNode
  apply Tame.bind_refreshStat hinLive
  intro stat'
  apply Tame.bind_setStat
  · rw [isSome_apply rfl]
    exact houtLive
  · exact Tame.pure h₄.caching

theorem bind_handleNode_astray {handle : FileHandle} {f : Id → Fs β}
    (hlost : s.Astray (some handle))
    (hf : ∀ n, s.nodes n = none → f n s = none) :
    (handleNode handle >>= f) s = none := by
  obtain ⟨found, hfound, hnone⟩ := hlost
  obtain rfl := Option.some.inj hfound
  unfold handleNode
  cases hnode : handle.node with
  | none => rfl
  | some n => exact hf n (hnone n hnode)

theorem astray_handle {seat : Option FileHandle} {f : FileHandle → Id → Fs β}
    (hlost : s.Astray seat)
    (hf : ∀ handle n, s.nodes n = none → f handle n s = none) :
    (do
      let handle ← found seat
      let n ← handleNode handle
      f handle n : Fs β) s = none := by
  cases seat with
  | none => exact absurd hlost.choose_spec.1 nofun
  | some handle =>
      refine (bind_of_ok (found_apply handle s)).trans ?_
      exact bind_handleNode_astray hlost (hf handle)

theorem refreshStat_gone {atime mtime : TimeArg} (hgone : s.nodes n = none) :
    refreshStat env n atime mtime s = none :=
  bind_of_none (by rw [deref, hgone])

theorem read_astray {len : Nat} {offset : Int}
    (hlost : s.ReadsAstray env fd len offset) :
    read env fd len offset s = none := by
  obtain ⟨handle, hfound, hastray, hanswers⟩ := hlost
  refine (bind_of_ok (state_apply s)).trans ?_
  rw [hfound]
  refine (bind_of_ok (found_apply handle s)).trans ?_
  cases hcache : s.cache with
  | none =>
      obtain ⟨count, hanswer⟩ := hanswers hcache
      have hthrough : readThrough env handle len offset s =
          some (.ok count, s.apply (.clock (env.delay s.tick))) := by
        rw [readThrough, bind_of_ok (state_apply s), hcache, ← hanswer]
        exact request_apply env _ s
      rw [bind_of_ok hthrough]
      have hastray' : (s.apply (.clock (env.delay s.tick))).Astray
          (some handle) := hastray
      exact bind_handleNode_astray hastray' fun n hgone =>
        bind_of_none (refreshStat_gone hgone)
  | some c =>
      refine bind_of_none ?_
      rw [readThrough, bind_of_ok (state_apply s), hcache]
      exact bind_handleNode_astray hastray fun n hgone =>
        bind_of_none (by rw [deref, hgone])

theorem bind_openFile_gone {f : Bool → Fs β} (hgone : s.nodes n = none) :
    (openFile n >>= f) s = none :=
  bind_of_none (bind_of_none (by rw [deref, hgone]))

theorem flush_astray (hlost : s.Astray (s.handles.find fd)) :
    flush env fd s = none :=
  astray_handle hlost fun _ _ => bind_openFile_gone

theorem copyFileRange_astray {inOff outOff : Int} {size : Nat}
    (htidies : env.Tidies) (h : AtRest s)
    (hlost : s.Astray (s.handles.find inFd) ∨
      s.Astray (s.handles.find outFd)) :
    copyFileRange env inPath inFd inOff outPath outFd outOff size s =
      none := by
  unfold copyFileRange copyLookup
  simp only [bind_assoc]
  by_cases hin : s.Astray (s.handles.find inFd)
  · apply bind_of_none
    rw [Program.outcome, flush_astray hin]
    rfl
  · have hout := hlost.resolve_left hin
    obtain ⟨r, s₁, hrun, halike⟩ := gentle_flush htidies h.caching hin
    rw [bind_of_ok (outcome_apply hrun)]
    apply bind_of_none
    have hout₁ : s₁.Astray (s₁.handles.find outFd) := by
      obtain ⟨handle, hfound, hnone⟩ := hout
      rw [halike.handles]
      refine ⟨handle, hfound, fun n hn => ?_⟩
      have hsome := halike.isSome n
      rw [hnone n hn] at hsome
      simpa using hsome
    rw [Program.outcome, flush_astray hout₁]
    rfl

end Copy

theorem AtRest.start (h : AtRest s) (env : Env) : AtRest (s.start env) :=
  ⟨Op.sound_start h.sound, h.caching⟩

end Fs

namespace FileTree

open Program Fs

variable {s : FileTree} {op : Op} {env : Env}

/-- An operation that does not dangle does not go wrong. -/
theorem tame_body (h : AtRest s) (hop : op.Proper) (henv : env.Proper)
    (htidies : env.Tidies) (hfree : ¬s.Dangles (op, env)) :
    Tame (op.body env) (s.start env) := by
  have h₀ := h.start env
  cases op with
  | readdir path => exact (tame_readdir henv h₀ hop).returns
  | getattr path =>
      refine Tame.returns (h₀.bind_lookup hop ?_)
      exact fun n t _ ht hin => tame_getattrAt ht.caching (ht.isSome hin)
  | readlink path => exact (tame_readlink h₀ hop).returns
  | mknod path mode dev => exact (tame_create h₀ hop.2).returns
  | mkdir path mode => exact (tame_create h₀ hop.2).returns
  | unlink path => exact (tame_unlink h₀ hop).returns
  | rmdir path => exact (tame_rmdir h₀ hop).returns
  | rename source target flags =>
      refine (tame_rename h₀ hop.2.1 hop.2.2 ?_).returns
      intro hne n fromParent toParent t hlookups hanswer hsevered
      exact hfree ⟨hne, n, fromParent, toParent, t, hlookups, hanswer,
        hsevered⟩
  | utimens path atime mtime => exact (tame_utimens h₀ hop).returns
  | truncate path size => exact (tame_truncate htidies h₀ hop).returns
  | «open» path flags => exact (tame_open h₀ hop).returns
  | read fd len offset =>
      exact (gentle_read htidies h₀.caching hfree).tame.returns
  | write fd input offset =>
      exact (gentle_write htidies h₀.caching hfree).tame.returns
  | flush fd => exact (gentle_flush htidies h₀.caching hfree).tame.returns
  | release fd => exact (tame_release htidies h₀.caching hfree).returns
  | copyFileRange inPath inFd inOff outPath outFd outOff size =>
      exact (tame_copyFileRange htidies h₀ (fun hlost => hfree (.inl hlost))
        fun hlost => hfree (.inr hlost)).returns
  | symlink path target => exact (tame_symlink h₀).returns
  | initializeRoot =>
      refine Tame.returns (Surely.bind_of_ok (state_apply _) ?_)
      refine Surely.when (fun _ => ?_) fun _ => h₀.caching
      refine Surely.bind_of_ok (edit_apply _ _) ?_
      apply Tame.bind_request (s := (s.start env).apply .markInitialized)
        h₀.caching
      intro stat _
      exact tame_setStat h₀.caching (h₀.isSome .root)
  | setTtl ttl =>
      refine Tame.returns (Surely.bind_of_ok (state_apply _) ?_)
      exact Surely.when (fun _ => ⟨_, _, edit_apply _ _, h₀.caching⟩)
        fun _ => h₀.caching
  | expiresAll => exact Tame.returns ⟨_, _, rfl, h₀.caching⟩
  | shutdown =>
      refine Tame.returns (Surely.bind_of_ok (state_apply _) ?_)
      cases hcache : (s.start env).cache with
      | none => exact Tame.pure h₀.caching
      | some c =>
          have hserve : Tame (serve env .shutdown c) (s.start env) :=
            (gentle_serve htidies h₀.caching hcache).tame
          exact Tame.bind_outcome hserve fun _ _ _ => Tame.pure

/-- An operation that dangles goes wrong. -/
theorem body_dangles (h : AtRest s) (hop : op.Proper)
    (htidies : env.Tidies) (hdangles : s.Dangles (op, env)) :
    op.body env (s.start env) = none := by
  have h₀ := h.start env
  cases op with
  | read fd len offset => exact bind_of_none (read_astray hdangles)
  | write fd input offset =>
      exact bind_of_none (astray_handle hdangles fun _ _ => bind_openFile_gone)
  | flush fd => exact bind_of_none (flush_astray hdangles)
  | release fd =>
      have hlost : ((s.start env).apply (.release fd)).Astray
          (s.handles.find fd) := hdangles
      exact bind_of_none (astray_handle hlost fun _ _ => bind_openFile_gone)
  | copyFileRange inPath inFd inOff outPath outFd outOff size =>
      exact bind_of_none (copyFileRange_astray htidies h₀ hdangles)
  | rename source target flags =>
      obtain ⟨hne, n, fromParent, toParent, t, hlookups, hanswer, hsevered⟩ :=
        hdangles
      exact bind_of_none (rename_severed h₀ hop.2.1 hop.2.2 hne hlookups
        hanswer hsevered)
  | _ => exact hdangles.elim

theorem step_eq_none_iff (h : AtRest s) (hop : op.Proper) (henv : env.Proper)
    (htidies : env.Tidies) :
    s.step (op, env) = none ↔ s.Dangles (op, env) := by
  unfold step exec
  rw [Option.map_eq_none_iff]
  constructor
  · intro hnone
    by_contra hfree
    obtain ⟨r, t, hrun, -⟩ := tame_body h hop henv htidies hfree
    cases hnone.symm.trans hrun
  · exact body_dangles h hop htidies

variable {caching : Option (Nat × Nat)} {ttl : Option Nat}
  {events : List (Op × Env)}

/-- The operations that move no node below itself, with a cache whose own
operations leave it tidy. -/
def Sheltered (s : FileTree) (event : Op × Env) (t : FileTree) : Prop :=
  Upright s event t ∧ event.2.Tidies

theorem atRest_create (caching : Option (Nat × Nat)) (ttl : Option Nat) :
    AtRest (create caching ttl) := by
  refine ⟨⟨tidy_create caching ttl, False.elim⟩, ?_⟩
  intro c hc
  obtain ⟨⟨pageSize, maxPages⟩, -, rfl⟩ := Option.map_eq_some_iff.mp hc
  exact ⟨(Pool.tidy_fresh pageSize maxPages).layout, Nat.zero_le _⟩

theorem atRest_step {event : Op × Env} {t : FileTree} (h : AtRest s)
    (hstep : s.step event = some t) (hguard : Sheltered s event t) :
    AtRest t := by
  obtain ⟨op, env⟩ := event
  obtain ⟨⟨⟨hop, henv⟩, hapart⟩, htidies⟩ := hguard
  obtain ⟨⟨r, t'⟩, hexec, heq⟩ := Option.map_eq_some_iff.mp hstep
  cases heq
  have hfree : ¬s.Dangles (op, env) := by
    intro hdangles
    rw [(step_eq_none_iff h hop henv htidies).mpr hdangles] at hstep
    cases hstep
  have h₀ := (h.start env).sound
  exact ⟨(Op.sits_body hop henv hapart False.elim h₀ _ _ hexec).1 h₀,
    (tame_body h hop henv htidies hfree).sat _ _ hexec⟩

theorem atRest_of_runs (hruns : Runs FileTree.step Sheltered
    (create caching ttl) events s) : AtRest s :=
  hruns.preserves (I := AtRest)
    (fun hstep hguard h => atRest_step h hstep hguard)
    (atRest_create caching ttl)

/-- In every state that a run reaches, an operation follows a null pointer or
one to a node that is gone exactly if it dangles there. -/
theorem goes_wrong_iff_of_runs (hruns : Runs FileTree.step Sheltered
      (create caching ttl) events s)
    (hop : op.Proper) (henv : env.Proper) (htidies : env.Tidies) :
    s.step (op, env) = none ↔ s.Dangles (op, env) :=
  step_eq_none_iff (atRest_of_runs hruns) hop henv htidies

theorem tidies_ofMode (mode : Nat) : (Env.ofMode mode).Tidies :=
  fun _ _ _ h => h

/-- A file that is unlinked while it is open: its descriptor goes wrong, its
path does not. -/
theorem goes_wrong_iff_of_runs_unlinked : ∃ s : FileTree,
    s.step (.flush 0, .ofMode sIfreg) = none ∧
      s.step (.getattr ["f"], .ofMode sIfreg) ≠ none := by
  have hruns : ∃ s, Runs FileTree.step Sheltered (create (some (4, 2)) none)
      [(.mknod ["f"] sIfreg 0, .ofMode sIfreg), (.open ["f"] 0, .ofMode sIfreg),
        (.unlink ["f"], .ofMode sIfreg)] s ∧
      s.handles.find 0 = some ⟨none, .read, 0⟩ := by
    refine ⟨_, .cons rfl ⟨⟨⟨⟨by decide, by decide⟩, Env.proper_ofMode _⟩,
      trivial⟩, tidies_ofMode _⟩ (.cons rfl ⟨⟨⟨by unfold Op.Proper; decide,
        Env.proper_ofMode _⟩, trivial⟩, tidies_ofMode _⟩
        (.cons rfl ⟨⟨⟨by unfold Op.Proper; decide, Env.proper_ofMode _⟩,
          trivial⟩, tidies_ofMode _⟩ (.nil _))), rfl⟩
  obtain ⟨s, hs, hseat⟩ := hruns
  have hproper : (Op.flush 0).Proper := trivial
  refine ⟨s, (goes_wrong_iff_of_runs hs hproper (Env.proper_ofMode _)
    (tidies_ofMode _)).mpr ⟨_, hseat, fun n hn => by cases hn⟩, ?_⟩
  intro hnone
  exact (goes_wrong_iff_of_runs hs (by unfold Op.Proper; decide)
    (Env.proper_ofMode _) (tidies_ofMode _)).mp hnone

end FileTree

end Madbfs
