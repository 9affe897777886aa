import Rose.RenamedIntents

/-!
# What the removal of a directory cancels

A removal cancels the prepared operations that a pattern selects and those of
the open handles at or below the path.  The pattern folds letters and is applied
before anything is known about the directory, so the exact condition under which
only operations of a removed directory are cancelled is stated here.
-/

namespace Rose

open FallibleActions

/-- An operation keeps its row and all its leases. -/
def LeftAlone (before after : Catalog) (op : WriteOp) : Prop :=
  op ∈ after.writeOps.rows ∧ ∀ lease ∈ before.leases.rows,
    lease.writeOpID = op.id → lease ∈ after.leases.rows

namespace LeftAlone

variable {before middle after : Catalog} {op : WriteOp}

theorem refl (opIn : op ∈ before.writeOps.rows) : LeftAlone before before op :=
  ⟨opIn, fun _ leaseIn _ => leaseIn⟩

theorem trans (first : LeftAlone before middle op) (second : LeftAlone middle after op) :
    LeftAlone before after op :=
  ⟨second.1, fun lease leaseIn own =>
    second.2 lease (first.2 lease leaseIn own) own⟩

theorem unselected_of_cancelPrepared {selects : Path → Bool}
    (still : op ∈ (before.cancelPrepared selects).writeOps.rows) (prepared : op.state = .prepared) :
    selects op.path = false := by
  rw [cancelPrepared_rows] at still
  obtain ⟨old, oldIn, image⟩ := List.mem_map.mp still
  unfold cancelledBy at image
  split_ifs at image with selected
  · rw [← image] at prepared
    cases prepared
  · rw [image] at selected
    simpa [prepared] using selected

theorem cancelPrepared_iff (opIn : op ∈ before.writeOps.rows) (prepared : op.state = .prepared)
    (selects : Path → Bool) :
    LeftAlone before (before.cancelPrepared selects) op ↔ selects op.path = false := by
  have sameRow : ∀ other ∈ before.writeOps.rows, other.id = op.id →
      other = op := fun other otherIn sameID =>
    before.writeOps.eq_of_key_eq otherIn opIn sameID
  constructor
  · rintro ⟨still, -⟩
    exact unselected_of_cancelPrepared still prepared
  · intro unselected
    constructor
    · rw [cancelPrepared_rows]
      refine List.mem_map.mpr ⟨op, opIn, ?_⟩
      simp [cancelledBy, unselected]
    · intro lease leaseIn own
      refine (KeyedTable.mem_keep _ _ _).mpr ⟨leaseIn, ?_⟩
      rw [Bool.not_eq_true', List.any_eq_false]
      intro other otherIn
      by_cases owner : other.id = lease.writeOpID
      · rw [sameRow other otherIn (owner.trans own)]
        simp [unselected]
      · simp [owner]

theorem cancelWriteOp_iff (opIn : op ∈ before.writeOps.rows) (prepared : op.state = .prepared)
    (id : Nat) :
    LeftAlone before (before.cancelWriteOp id) op ↔ op.id ≠ id := by
  have rows : (before.cancelWriteOp id).writeOps.rows = _ :=
    finishPreparedWriteOp_rows id .cancelled
  constructor
  · rintro ⟨still, -⟩ rfl
    rw [rows] at still
    obtain ⟨old, oldIn, image⟩ := List.mem_map.mp still
    unfold ifPrepared at image
    split_ifs at image with selected
    · rw [← image] at prepared
      cases prepared
    · rw [image] at selected
      exact selected ⟨by simp, prepared⟩
  · intro other
    constructor
    · rw [rows]
      refine List.mem_map.mpr ⟨op, opIn, ?_⟩
      simp [ifPrepared, other]
    · intro lease leaseIn own
      refine (KeyedTable.mem_keep _ _ _).mpr ⟨leaseIn, ?_⟩
      simp [own, other]

theorem mem_of_foldl_cancelWriteOp {ids : List Nat}
    (still : op ∈ (ids.foldl Catalog.cancelWriteOp before).writeOps.rows)
    (prepared : op.state = .prepared) :
    op ∈ before.writeOps.rows ∧ op.id ∉ ids := by
  obtain ⟨old, oldIn, -, kept, -⟩ := FileServer.foldl_cancel_rows ids before op still
  obtain ⟨rfl, absent⟩ := kept prepared
  exact ⟨oldIn, absent⟩

theorem foldl_cancelWriteOp {ids : List Nat} (opIn : op ∈ before.writeOps.rows)
    (prepared : op.state = .prepared) (absent : op.id ∉ ids) :
    LeftAlone before (ids.foldl Catalog.cancelWriteOp before) op := by
  induction ids generalizing before with
  | nil => exact refl opIn
  | cons id ids ih =>
    rw [List.mem_cons, not_or] at absent
    have first := (cancelWriteOp_iff opIn prepared id).mpr absent.1
    exact first.trans (ih first.1 absent.2)

end LeftAlone

namespace FileServer

variable {server : FileServer} {path : Path} {op : WriteOp}

/-- A removal that changes nothing: the path is empty or the root, names a file
or has entries. -/
def RefusesRmdir (server : FileServer) (path : Path) : Prop := path = [] ∨ cleanPath path = [] ∨
    server.namesFile (cleanPath path) = true ∨
    server.catalog.hasChildren (cleanPath path) = true

/-- The operations a removal cancels: those that its pattern selects and those
of the handles at or below the path. -/
def RmdirSelects (server : FileServer) (path : Path) (op : WriteOp) : Prop :=
  inSubtree (cleanPath path) op.path = true ∨ op.id ∈ server.markedOps (cleanPath path) true

theorem transaction_returns {α : Type} {value : α} {catalog : Catalog}
    {run : Catalog → Except CatalogError (α × Catalog)} {returned : α → FileServer → Prop}
    {failed : FileServer → Prop} (ran : run server.catalog = .ok (value, catalog))
    (holds : returned value { server with catalog }) :
    Ends (transaction run) server returned failed := by
  unfold Ends transaction
  rw [ran]
  exact holds

theorem rmdir_refused (refused : server.RefusesRmdir path) :
    Ends (rmdir path) server (fun _ _ => False) (fun after => after = server) := by
  unfold rmdir
  split_ifs with empty
  · exact .throw rfl
  · refine .bind_get ?_
    split_ifs with file
    · exact .throw rfl
    · have never : Ends (transaction fun catalog =>
          (catalog.rmdir (cleanPath path)).map ((), ·)) server
          (fun _ _ => False) (fun after => after = server) := by
        refine transaction_ends (fun _ catalog removed => ?_) rfl
        obtain ⟨after, ran, -⟩ := map_eq_ok_iff.mp removed
        obtain ⟨notRoot, vacant, -⟩ := Catalog.rmdir_ok ran
        rw [cleanPath_cleanPath] at notRoot vacant
        rcases refused with isEmpty | root | isFile | crowded
        · exact empty isEmpty
        · exact notRoot root
        · exact file isFile
        · rw [vacant] at crowded
          cases crowded
      exact never.bind fun _ _ impossible => impossible.elim

/-- The catalog after a removal that is not refused. -/
def rmdirCatalog (server : FileServer) (path : Path) : Catalog :=
  (server.markedOps (cleanPath path) true).foldl Catalog.cancelWriteOp
    { server.catalog.cancelPrepared (inSubtree (cleanPath path)) with
      dirs := server.catalog.dirs.keep
        fun dir => decide (dir.path ≠ cleanPath path) }

/-- What a removal that is not refused does to the catalog. -/
theorem rmdir_performed (performed : ¬server.RefusesRmdir path) :
    Ends (rmdir path) server (fun _ after => after.catalog = server.rmdirCatalog path)
      (fun _ => False) := by
  unfold RefusesRmdir at performed
  push Not at performed
  obtain ⟨notEmpty, notRoot, notFile, vacant⟩ := performed
  have removes : server.catalog.rmdir (cleanPath path) = .ok
      { server.catalog.cancelPrepared (inSubtree (cleanPath path)) with
        dirs := server.catalog.dirs.keep
          fun dir => decide (dir.path ≠ cleanPath path) } := by
    unfold Catalog.rmdir
    rw [cleanPath_cleanPath]
    simp only [if_neg notRoot]
    exact if_neg vacant
  unfold rmdir
  rw [if_neg notEmpty]
  refine .bind_get ?_
  rw [if_neg notFile]
  have removing : Ends (transaction fun catalog =>
      (catalog.rmdir (cleanPath path)).map ((), ·)) server
      (fun _ after => after = { server with
        catalog := { server.catalog.cancelPrepared
            (inSubtree (cleanPath path)) with
          dirs := server.catalog.dirs.keep
            fun dir => decide (dir.path ≠ cleanPath path) } })
      (fun _ => False) :=
    transaction_returns (map_eq_ok_iff.mpr ⟨_, removes, rfl⟩) rfl
  refine removing.bind fun _ middle same => ?_
  rw [same]
  exact rfl

theorem serve_rmdir_refused {plain : Bytes → Bytes} (refused : server.RefusesRmdir path) :
    (server.serve (.rmdir path : Request plain)).2 = server := by
  rcases answer_ends (fun _ => .done) (rmdir_refused refused) with
    ⟨value, after, answered, impossible⟩ | ⟨reason, after, answered, same⟩
  · exact impossible.elim
  · exact (congrArg Prod.snd answered).trans same

theorem serve_rmdir_performed {plain : Bytes → Bytes} (performed : ¬server.RefusesRmdir path) :
    (server.serve (.rmdir path : Request plain)).2.catalog = server.rmdirCatalog path := by
  rcases answer_ends (fun _ => .done) (rmdir_performed performed) with
    ⟨value, after, answered, same⟩ | ⟨reason, after, answered, impossible⟩
  · exact (congrArg (fun reply => reply.2.catalog) answered).trans same
  · exact impossible.elim

theorem leftAlone_rmdirCatalog_iff (opIn : op ∈ server.catalog.writeOps.rows)
    (prepared : op.state = .prepared) :
    LeftAlone server.catalog (server.rmdirCatalog path) op ↔ ¬server.RmdirSelects path op := by
  have pattern := LeftAlone.cancelPrepared_iff opIn prepared (inSubtree (cleanPath path))
  unfold RmdirSelects rmdirCatalog
  rw [not_or, Bool.not_eq_true]
  constructor
  · rintro ⟨still, leases⟩
    obtain ⟨between, absent⟩ := LeftAlone.mem_of_foldl_cancelWriteOp still prepared
    exact ⟨LeftAlone.unselected_of_cancelPrepared between prepared, absent⟩
  · rintro ⟨unselected, absent⟩
    have first : LeftAlone server.catalog
        { server.catalog.cancelPrepared (inSubtree (cleanPath path)) with
          dirs := server.catalog.dirs.keep
            fun dir => decide (dir.path ≠ cleanPath path) } op :=
      pattern.mpr unselected
    exact first.trans (LeftAlone.foldl_cancelWriteOp first.1 prepared absent)

theorem foldl_cancelWriteOp_dirs (ids : List Nat) (catalog : Catalog) :
    (ids.foldl Catalog.cancelWriteOp catalog).dirs = catalog.dirs := by
  induction ids generalizing catalog with
  | nil => rfl
  | cons id ids ih => exact ih (catalog.cancelWriteOp id)

theorem rmdirCatalog_has : (server.rmdirCatalog path).dirs.has (cleanPath path) = false := by
  unfold rmdirCatalog
  rw [foldl_cancelWriteOp_dirs, KeyedTable.has_eq_false_iff]
  intro dir dirIn same
  obtain ⟨-, kept⟩ := (KeyedTable.mem_keep _ _ _).mp dirIn
  exact of_decide_eq_true kept same

/-- A removal cancels only operations at or below a directory that it removes. -/
def RmdirSparesOthers (plain : Bytes → Bytes) (server : FileServer) (path : Path) : Prop :=
  ∀ op ∈ server.catalog.writeOps.rows, op.state = .prepared → ¬LeftAlone server.catalog
      (server.serve (.rmdir path : Request plain)).2.catalog op →
    server.catalog.dirs.has (cleanPath path) = true ∧
      (server.serve (.rmdir path : Request plain)).2.catalog.dirs.has (cleanPath path) = false ∧
      AtOrBelow (cleanPath path) op.path

/-- A removal spares the other operations exactly if it is refused or everything
it selects lies, byte for byte, at or below an existing directory. -/
theorem rmdir_spares_others_iff {plain : Bytes → Bytes} (server : FileServer) (path : Path) :
    server.RmdirSparesOthers plain path ↔
    (server.RefusesRmdir path ∨ ∀ op ∈ server.catalog.writeOps.rows, op.state = .prepared →
        server.RmdirSelects path op →
        server.catalog.dirs.has (cleanPath path) = true ∧ AtOrBelow (cleanPath path) op.path) := by
  unfold RmdirSparesOthers
  by_cases refused : server.RefusesRmdir path
  · rw [serve_rmdir_refused refused]
    constructor
    · exact fun _ => Or.inl refused
    · intro _ op opIn _ touched
      exact absurd (LeftAlone.refl opIn) touched
  · rw [serve_rmdir_performed refused]
    constructor
    · intro spares
      refine Or.inr fun op opIn prepared selected => ?_
      have touched : ¬LeftAlone server.catalog (server.rmdirCatalog path) op := by
        rw [leftAlone_rmdirCatalog_iff opIn prepared, not_not]
        exact selected
      obtain ⟨existed, -, within⟩ := spares op opIn prepared touched
      exact ⟨existed, within⟩
    · rintro (isRefused | spared) op opIn prepared touched
      · exact absurd isRefused refused
      · rw [leftAlone_rmdirCatalog_iff opIn prepared, not_not] at touched
        obtain ⟨existed, within⟩ := spared op opIn prepared touched
        exact ⟨existed, rmdirCatalog_has, within⟩

section Strays

/-- An operation that writes a file which is not published yet. -/
def pendingWrite (path : Path) : WriteOp := ⟨1, "key", path, .prepared, 0, 0, 0, []⟩

/-- A server with one pending write that leases a vlog. -/
def pendingServer (dirs : KeyedTable DirRow.path) (path : Path) : FileServer :=
  { FileServer.initial 0 with
    catalog := { Catalog.empty with
      dirs
      writeOps := SequencedTable.empty.append
        (fun id => { pendingWrite path with id }) (fun _ => rfl)
      leases := KeyedTable.empty.put ⟨5, 1, 0⟩ } }

/-- Where no directory exists the removal of a name cancels the write to a file
of that name.  The removal of one directory cancels a write below another whose
name differs in the case of a letter, or only after a zero byte. -/
theorem rmdir_cancels_other_writes :
    ¬(pendingServer .empty (ascii ['a'])).RmdirSparesOthers id (ascii ['a']) ∧
      ¬(pendingServer (KeyedTable.empty.put (dirRow (ascii ['a']) 0))
        (ascii ['A', '/', 'f'])).RmdirSparesOthers id (ascii ['a']) ∧
      ¬(pendingServer (KeyedTable.empty.put (dirRow (ascii ['r', '\x00', 'b']) 0))
        (ascii ['r', '\x00', 'z', '/', 'f'])).RmdirSparesOthers id
          (ascii ['r', '\x00', 'b']) := by
  refine ⟨fun spares => ?_, fun spares => ?_, fun spares => ?_⟩
  · obtain ⟨existed, -⟩ := spares (pendingWrite (ascii ['a'])) (by decide) rfl
      fun left => absurd left.1 (by decide)
    exact absurd existed (by decide)
  · obtain ⟨-, -, within⟩ := spares (pendingWrite (ascii ['A', '/', 'f'])) (by decide) rfl
      fun left => absurd left.1 (by decide)
    exact absurd within (by decide)
  · obtain ⟨-, -, within⟩ := spares (pendingWrite (ascii ['r', '\x00', 'z', '/', 'f']))
      (by decide) rfl fun left => absurd left.1 (by decide)
    exact absurd within (by decide)

end Strays

end FileServer

end Rose
