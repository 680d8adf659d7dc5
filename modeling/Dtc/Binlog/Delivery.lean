import Dtc.Binlog.Log

/-!
# What the reader of the binlog returns

The reader stands behind a number of whole records of one file. A step of the writer only
adds records to the newest file, so the reader keeps its place, unless it has read the
length of a record of which the rest is missing: `Read` then gives up without going back to
the length, and the next call takes the middle of the record for the start of one.
-/

namespace Dtc.Binlog

open Library.Memory Library.Machine List State

/-- A record as it stands in a file, within the limit of `Read`. -/
def Framed (r : List UInt8) : Prop :=
  12 ≤ r.length ∧ r.length < 2 ^ 20 + 4 ∧ r.take 4 = leBytes 4 (r.length - 4)

theorem Record.framed_bytes {r : Record} (small : r.bytes.length < 2 ^ 20 + 4) : Framed r.bytes := by
  refine ⟨?_, small, r.take_four_bytes⟩
  rw [r.length_bytes, endof]
  omega

/-- The length word of a record. -/
theorem Framed.leNat_take {r : List UInt8} (framed : Framed r) : leNat (r.take 4) = r.length - 4 := by
  obtain ⟨-, small, head⟩ := framed
  rw [head, leNat_leBytes_of_lt]
  omega

theorem flatten_take_drop {α : Type} (l : List (List α)) (k : Nat) :
    l.flatten = (l.take k).flatten ++ (l.drop k).flatten := by
  rw [← flatten_append, take_append_drop]

namespace State
variable (s : State)

/-- The bytes of an unfinished record in the newest file. -/
def partialBytes : List UInt8 :=
  match s.writer with
  | .writing record done => record.take done
  | _ => []

/-- The reader is about to read the length of a record of which the length is in the file,
but not the rest. -/
def Torn : Prop :=
  s.serial = s.maxSerial ∧ s.reader.isReady = true ∧
    s.pos = (s.committed s.maxSerial).flatten.length ∧ 4 ≤ s.partialBytes.length

instance : Decidable s.Torn := by unfold Torn; infer_instance

/-- The reader stands behind the first `k` records of its file. -/
def At (k : Nat) : Prop :=
  match s.reader with
  | .reading .length =>
    s.pos = s.offset ∧ s.offset = ((s.committed s.serial).take k).flatten.length
  | .reading (.body head len) =>
    s.pos = s.offset ∧ s.offset = ((s.committed s.serial).take k).flatten.length + 4 ∧
      ∃ r, (s.committed s.serial)[k]? = some r ∧ r.take 4 = head ∧ r.length = 4 + len
  | .short .length rd =>
    k = (s.committed s.serial).length ∧ s.offset = (s.committed s.serial).flatten.length ∧
      s.pos = s.offset + rd ∧ rd < 4 ∧
      rd = if s.serial = s.maxSerial then s.partialBytes.length else 0
  | .short (.body _ _) _ => False

/-- The reader has returned the records of the files behind it, apart from removed ones, and
the first `k` records of its file. -/
def Past (first k : Nat) : Prop :=
  ∃ skipped : Nat → Bool, (∀ n, skipped n = true → n < s.serial ∧ s.linked n = false) ∧
    s.delivered = ((List.range' first (s.serial - first)).filter fun n => !skipped n).flatMap
      s.committed ++ (s.committed s.serial).take k

/-- All that is in the log has been returned, apart from removed files. -/
def Complete (first : Nat) : Prop :=
  ∃ skipped : Nat → Bool, (∀ n, skipped n = true → s.linked n = false) ∧
    s.delivered = ((List.range' first (s.maxSerial + 1 - first)).filter fun n => !skipped n).flatMap
      s.committed

/-- What the writer knows about the newest file. -/
def Sized (lim : Limits) : Prop :=
  match s.writer with
  | .idle =>
    s.curSize = (s.committed s.maxSerial).flatten.length ∧ (s.curSize < lim.maxSize ∨ s.curSize = 0)
  | .writing record done =>
    s.curSize = (s.committed s.maxSerial).flatten.length ∧
      (s.curSize < lim.maxSize ∨ s.curSize = 0) ∧ done < record.length ∧ Framed record
  | .written size => s.curSize + size = (s.committed s.maxSerial).flatten.length
  | .rotating => True

/-- The writer is not between two files. -/
def Steady : Prop :=
  match s.writer with
  | .rotating => False
  | _ => True

end State

/-- The invariant of writer and reader. -/
structure Inv (lim : Limits) (first : Nat) (s : State) : Prop where
  bounded : s.maxSerial < 2 ^ 32
  content : ∀ n f, s.files n = some f → n ≤ s.maxSerial ∧
    f.content = (s.committed n).flatten ++ if n = s.maxSerial then s.partialBytes else []
  absent : ∀ n, s.files n = none → s.committed n = []
  framed : ∀ n, ∀ r ∈ s.committed n, Framed r
  newest : s.Steady → s.linked s.maxSerial = true
  sized : s.Sized lim
  isOpen : s.isOpen = true
  low : first ≤ s.serial
  exists_file : ∃ f, s.files s.serial = some f
  place : ∃ k, k ≤ (s.committed s.serial).length ∧ s.At k ∧ s.Past first k

/-- What has to hold of the steps of a run. -/
def Legal (s : State) : Event → Prop
  | .commit record => record.bytes.length < 2 ^ 20 + 4
  | .put _ => s.reader.isShort = false
  | .finish => True
  | .create => s.maxSerial + 1 < 2 ^ 32
  | .read => ¬ s.Torn

instance (s : State) : DecidablePred (Legal s) := fun event => by
  cases event <;> unfold Legal <;> infer_instance

section Frame
variable {s s' : State} {first k : Nat}

theorem State.Past.frame (past : s.Past first k) (serial : s'.serial = s.serial)
    (delivered : s'.delivered = s.delivered)
    (behind : ∀ n, n < s.serial → s'.committed n = s.committed n)
    (here : (s'.committed s.serial).take k = (s.committed s.serial).take k)
    (removed : ∀ n, n < s.serial → s.linked n = false → s'.linked n = false) : s'.Past first k := by
  obtain ⟨skipped, missing, same⟩ := past
  refine ⟨skipped, fun n skip => ?_, ?_⟩
  · obtain ⟨below, gone⟩ := missing n skip
    exact ⟨serial ▸ below, removed n below gone⟩
  · rw [delivered, same, serial, here]
    congr 1
    simp only [flatMap_def]
    congr 1
    refine map_congr_left fun n mem => ?_
    have := mem_range'_1.mp (mem_of_mem_filter mem)
    exact (behind n (by omega)).symm

/-- The reader keeps its place when records are added behind it. -/
theorem State.At.frame (place : s.At k) (bound : k ≤ (s.committed s.serial).length)
    (reader : s'.reader = s.reader) (pos : s'.pos = s.pos) (offset : s'.offset = s.offset)
    (serial : s'.serial = s.serial) {more : List (List UInt8)}
    (here : s'.committed s.serial = s.committed s.serial ++ more)
    (tail : ∀ want rd, s.reader = .short want rd → more = [] ∧
      (if s'.serial = s'.maxSerial then s'.partialBytes.length else 0) =
        if s.serial = s.maxSerial then s.partialBytes.length else 0) : s'.At k := by
  unfold At at place ⊢
  rw [reader, pos, offset, serial, here]
  match phase : s.reader with
  | .reading .length =>
    simp only [phase] at place ⊢
    rwa [take_append_of_le_length bound]
  | .reading (.body head len) =>
    simp only [phase] at place ⊢
    obtain ⟨samePos, sameOffset, r, isRecord, rest⟩ := place
    rw [take_append_of_le_length bound]
    refine ⟨samePos, sameOffset, r, ?_, rest⟩
    rw [List.getElem?_append_left (List.getElem?_eq_some_iff.mp isRecord).1]
    exact isRecord
  | .short .length rd =>
    simp only [phase] at place ⊢
    obtain ⟨rfl, same⟩ := tail _ _ phase
    rw [serial] at same
    rwa [append_nil, same]
  | .short (.body head len) rd => simp only [phase] at place

end Frame

section Writer
variable {lim : Limits} {first : Nat} {s : State}

theorem Inv.serial_le (inv : Inv lim first s) : s.serial ≤ s.maxSerial := by
  obtain ⟨f, isFile⟩ := inv.exists_file
  exact (inv.content _ f isFile).1

theorem Inv.commit (inv : Inv lim first s) (idle : s.writer = .idle) {r : Record}
    (small : r.bytes.length < 2 ^ 20 + 4) :
    Inv lim first { s with writer := .writing r.bytes 0 } := by
  have none_left : s.partialBytes = [] := by simp [partialBytes, idle]
  have none_right : partialBytes { s with writer := .writing r.bytes 0 } = [] := by
    simp [partialBytes]
  obtain ⟨k, bound, place, past⟩ := inv.place
  have sized := inv.sized
  simp only [Sized, idle] at sized
  refine { inv with
    content := ?_, newest := ?_, sized := ?_, place := ⟨k, bound, ?_, past⟩ }
  · intro n f isFile
    have := inv.content n f isFile
    rw [none_left] at this
    rwa [none_right]
  · intro _
    exact inv.newest (by simp [Steady, idle])
  · refine ⟨sized.1, sized.2, ?_, Record.framed_bytes small⟩
    rw [r.length_bytes, endof]
    omega
  · refine place.frame bound rfl rfl rfl rfl (append_nil _).symm ?_
    intro _ _ _
    rw [none_left, none_right]
    exact ⟨rfl, rfl⟩

/-- A change of the directory that keeps the data of all files, after a whole record. -/
theorem Inv.between (inv : Inv lim first s) {size : Nat} (written : s.writer = .written size)
    {files : Nat → Option File} {curSize minSerial : Nat} {writer : WriterPhase}
    (same : ∀ n, (files n).map File.content = (s.files n).map File.content)
    (fewer : ∀ n, s.linked n = false → (files n).any File.linked = false)
    (none_right : partialBytes { s with files, curSize, minSerial, writer } = [])
    (newest : Steady { s with files, curSize, minSerial, writer } →
      (files s.maxSerial).any File.linked = true)
    (sized : Sized { s with files, curSize, minSerial, writer } lim) :
    Inv lim first { s with files, curSize, minSerial, writer } := by
  have none_left : s.partialBytes = [] := by simp [partialBytes, written]
  obtain ⟨k, bound, place, past⟩ := inv.place
  refine ⟨inv.bounded, ?_, ?_, inv.framed, newest, sized, inv.isOpen, inv.low, ?_, k, bound, ?_, ?_⟩
  · intro n f isFile
    have sameContent := same n
    simp only at isFile
    rw [isFile] at sameContent
    obtain ⟨g, isOld, content⟩ := Option.map_eq_some_iff.mp sameContent.symm
    have := inv.content n g isOld
    rw [none_left, content] at this
    rwa [none_right]
  · intro n isNone
    have sameContent := same n
    simp only at isNone
    rw [isNone] at sameContent
    exact inv.absent n (Option.map_eq_none_iff.mp sameContent.symm)
  · obtain ⟨f, isFile⟩ := inv.exists_file
    have sameContent := same s.serial
    rw [isFile] at sameContent
    obtain ⟨g, isNew, -⟩ := Option.map_eq_some_iff.mp sameContent
    exact ⟨g, isNew⟩
  · refine place.frame bound rfl rfl rfl rfl (append_nil _).symm ?_
    intro _ _ _
    rw [none_left, none_right]
    exact ⟨rfl, rfl⟩
  · exact past.frame rfl rfl (fun _ _ => rfl) rfl (fun n _ gone => fewer n gone)

theorem map_content_unlink (files : Nat → Option File) (serial n : Nat) :
    (unlink files serial n).map File.content = (files n).map File.content := by
  unfold unlink
  split_ifs
  · cases files n <;> rfl
  · rfl

theorem unlink_linked (files : Nat → Option File) (serial n : Nat)
    (gone : (files n).any File.linked = false) : (unlink files serial n).any File.linked = false := by
  unfold unlink
  split_ifs
  · cases files n <;> rfl
  · exact gone

theorem Inv.finish (inv : Inv lim first s) {size : Nat} (written : s.writer = .written size) :
    Inv lim first (finish lim s size) := by
  have sized := inv.sized
  simp only [Sized, written] at sized
  unfold Binlog.finish
  dsimp only
  split_ifs with small remove
  · refine inv.between written (fun _ => rfl) (fun _ gone => gone) rfl ?_ ?_
    · exact fun _ => inv.newest (by simp [Steady, written])
    · exact ⟨sized, .inl small⟩
  · exact inv.between written (map_content_unlink _ _) (unlink_linked _ _) rfl (fun h => h.elim)
      trivial
  · exact inv.between written (fun _ => rfl) (fun _ gone => gone) rfl (fun h => h.elim) trivial

theorem Inv.create (inv : Inv lim first s) (rotating : s.writer = .rotating)
    (more : s.maxSerial + 1 < 2 ^ 32) : Inv lim first (create s) := by
  have none_left : s.partialBytes = [] := by simp [partialBytes, rotating]
  have none_right : (Binlog.create s).partialBytes = [] := rfl
  have next : (Binlog.create s).maxSerial = s.maxSerial + 1 := add32_eq more
  have files : ∀ n, (Binlog.create s).files n =
      if n = s.maxSerial + 1 then some ⟨[], true⟩ else s.files n := by
    intro n
    rw [← next]
    rfl
  have empty : s.committed (s.maxSerial + 1) = [] := by
    refine inv.absent _ ?_
    by_contra exists_file
    obtain ⟨f, isFile⟩ := Option.ne_none_iff_exists'.mp exists_file
    have := (inv.content _ f isFile).1
    omega
  have below := inv.serial_le
  obtain ⟨k, bound, place, past⟩ := inv.place
  refine ⟨by rw [next]; exact more, ?_, ?_, inv.framed, ?_, ?_, inv.isOpen, inv.low, ?_, k, bound,
    ?_, ?_⟩
  · intro n f isFile
    rw [files] at isFile
    rw [next, none_right]
    split_ifs at isFile with isNext
    · cases isFile
      subst isNext
      exact ⟨le_refl _, by simp [Binlog.create, empty]⟩
    · obtain ⟨le, content⟩ := inv.content n f isFile
      rw [none_left] at content
      refine ⟨by omega, ?_⟩
      simpa [Binlog.create] using content
  · intro n isNone
    rw [files] at isNone
    split_ifs at isNone
    exact inv.absent n isNone
  · intro _
    rw [linked, files, next, if_pos rfl]
    rfl
  · refine ⟨?_, .inr rfl⟩
    rw [next]
    simp [Binlog.create, empty]
  · obtain ⟨f, isFile⟩ := inv.exists_file
    refine ⟨f, ?_⟩
    rw [files]
    have : s.serial ≠ s.maxSerial + 1 := by omega
    simpa [Binlog.create, this] using isFile
  · refine place.frame bound rfl rfl rfl rfl (append_nil _).symm ?_
    intro _ _ _
    rw [none_left, none_right]
    simp
  · refine past.frame rfl rfl (fun _ _ => rfl) rfl fun n less gone => ?_
    have : n ≠ s.maxSerial + 1 := by omega
    rw [linked, files, if_neg this]
    exact gone

/-- The data of the newest file has grown, and maybe become whole records. -/
structure Grown (s t : State) (added : List UInt8) (more : List (List UInt8)) : Prop where
  files : ∀ n, t.files n =
    if n = s.maxSerial then (s.files n).map fun f => { f with content := f.content ++ added }
    else s.files n
  committed : ∀ n, t.committed n = s.committed n ++ if n = s.maxSerial then more else []
  maxSerial : t.maxSerial = s.maxSerial
  serial : t.serial = s.serial
  offset : t.offset = s.offset
  pos : t.pos = s.pos
  isOpen : t.isOpen = s.isOpen
  reader : t.reader = s.reader
  delivered : t.delivered = s.delivered

theorem Grown.linked {t : State} {added : List UInt8} {more : List (List UInt8)}
    (grown : Grown s t added more) (n : Nat) : t.linked n = s.linked n := by
  rw [State.linked, grown.files, State.linked]
  split_ifs
  · cases s.files n <;> rfl
  · rfl

section
variable {record : List UInt8} {done : Nat} (inv : Inv lim first s)
  (writing : s.writer = .writing record done) (reading : s.reader.isShort = false)
include inv writing reading

theorem Inv.grow {t : State} {added : List UInt8} {more : List (List UInt8)}
    (grown : Grown s t added more) (framed : ∀ r ∈ more, Framed r)
    (bytes : record.take done ++ added = more.flatten ++ t.partialBytes) (sized : t.Sized lim) :
    Inv lim first t := by
  have part : s.partialBytes = record.take done := by simp [partialBytes, writing]
  have newest : s.linked s.maxSerial = true := inv.newest (by simp [Steady, writing])
  have below := inv.serial_le
  obtain ⟨k, bound, place, past⟩ := inv.place
  refine ⟨by rw [grown.maxSerial]; exact inv.bounded, ?_, ?_, ?_, ?_, sized,
    by rw [grown.isOpen]; exact inv.isOpen, by rw [grown.serial]; exact inv.low, ?_, k, ?_, ?_, ?_⟩
  · intro n f isFile
    rw [grown.maxSerial, grown.committed]
    rw [grown.files] at isFile
    split_ifs at isFile ⊢ with isNewest
    · obtain ⟨g, isOld, rfl⟩ := Option.map_eq_some_iff.mp isFile
      obtain ⟨le, content⟩ := inv.content n g isOld
      refine ⟨le, ?_⟩
      rw [if_pos isNewest, part] at content
      rw [content, flatten_append, append_assoc, append_assoc, bytes]
    · obtain ⟨le, content⟩ := inv.content n f isFile
      refine ⟨le, ?_⟩
      rw [if_neg isNewest] at content
      simpa using content
  · intro n isNone
    rw [grown.files] at isNone
    rw [grown.committed]
    split_ifs at isNone ⊢ with isNewest
    · rw [← isNewest, linked, Option.map_eq_none_iff.mp isNone] at newest
      cases newest
    · rw [inv.absent n isNone, nil_append]
  · intro n r mem
    rw [grown.committed] at mem
    rcases mem_append.mp mem with mem | mem
    · exact inv.framed n r mem
    · split_ifs at mem
      · exact framed r mem
      · cases mem
  · intro _
    rw [grown.maxSerial, grown.linked, newest]
  · obtain ⟨f, isFile⟩ := inv.exists_file
    rw [grown.serial, grown.files, isFile]
    split_ifs
    · exact ⟨_, rfl⟩
    · exact ⟨f, rfl⟩
  · rw [grown.serial, grown.committed, length_append]
    omega
  · refine place.frame bound grown.reader grown.pos grown.offset grown.serial (grown.committed _) ?_
    intro want rd isShort
    rw [isShort] at reading
    cases reading
  · refine past.frame grown.serial grown.delivered (fun n less => ?_) ?_ fun n _ gone => ?_
    · rw [grown.committed, if_neg (by omega), append_nil]
    · rw [grown.committed, take_append_of_le_length bound]
    · rw [grown.linked, gone]

theorem Inv.put {n : Nat} : Inv lim first (put s record done n) := by
  have sized := inv.sized
  simp only [Sized, writing] at sized
  obtain ⟨isSize, small, unfinished, framed⟩ := sized
  have joined : record.take done ++ (record.drop done).take n = record.take (done + n) := by
    rw [take_add]
  unfold Binlog.put
  split_ifs with part
  · refine inv.grow writing reading ⟨fun _ => rfl, fun k => ?_, rfl, rfl, rfl, rfl, rfl, rfl, rfl⟩
      (forall_mem_nil _) joined ⟨isSize, small, part, framed⟩
    split_ifs <;> simp
  · refine inv.grow writing reading ⟨fun _ => rfl, fun k => ?_, rfl, rfl, rfl, rfl, rfl, rfl, rfl⟩
      (forall_mem_singleton.mpr framed) ?_ ?_
    · dsimp only
      split_ifs <;> simp
    · rw [joined, take_of_length_le (by omega)]
      simp [partialBytes]
    · simp [Sized, isSize]

end

end Writer

section Reader
variable {lim : Limits} {first k : Nat} {s : State}

section
variable (inv : Inv lim first s)
include inv

/-- What is in the reader's file from the `k`-th record on. -/
theorem Inv.drop_content (k : Nat) :
    (s.content s.serial).drop ((s.committed s.serial).take k).flatten.length =
      ((s.committed s.serial).drop k).flatten ++
        if s.serial = s.maxSerial then s.partialBytes else [] := by
  obtain ⟨f, isFile⟩ := inv.exists_file
  have content : s.content s.serial = f.content := by simp [State.content, isFile]
  rw [content, (inv.content _ f isFile).2, flatten_take_drop (s.committed s.serial) k,
    append_assoc, drop_left]

/-- The bytes of the next record. -/
theorem Inv.drop_content_cons {r : List UInt8} (isRecord : (s.committed s.serial)[k]? = some r) :
    ∃ rest, (s.content s.serial).drop ((s.committed s.serial).take k).flatten.length = r ++ rest := by
  obtain ⟨bound, isGet⟩ := List.getElem?_eq_some_iff.mp isRecord
  rw [inv.drop_content, drop_eq_getElem_cons bound, isGet, flatten_cons, append_assoc]
  exact ⟨_, rfl⟩

section
variable (phase : s.reader = .reading .length) (place : s.At k) (past : s.Past first k)
include phase place past

/-- A reader at the start of a whole record reads its length. -/
theorem Inv.readFile_length {r : List UInt8} (isRecord : (s.committed s.serial)[k]? = some r) :
    ∃ t : State, readFile s .length = (.going, t) ∧ Inv lim first t ∧
      t.reader = .reading (.body (r.take 4) (r.length - 4)) := by
  obtain ⟨bound, isGet⟩ := List.getElem?_eq_some_iff.mp isRecord
  have framed : Framed r := inv.framed _ r (isGet ▸ getElem_mem bound)
  obtain ⟨low, high, -⟩ := id framed
  simp only [At, phase] at place
  obtain ⟨rest, isRest⟩ := inv.drop_content_cons isRecord
  have got : ((s.content s.serial).drop s.pos).take 4 = r.take 4 := by
    rw [place.1, place.2, isRest, take_append_of_le_length (by omega)]
  refine ⟨{ s with
    pos := s.pos + 4, offset := s.offset + 4, reader := .reading (.body (r.take 4) (r.length - 4)) },
    ?_, ?_, rfl⟩
  · have full : (r.take 4).length = 4 := by simp; omega
    simp only [readFile, inv.isOpen, if_true, Want.size, got, full, framed.leNat_take]
    rw [if_neg (by omega)]
  · refine { inv with place := ⟨k, bound.le, ?_, past⟩ }
    refine ⟨?_, ?_, r, isRecord, rfl, ?_⟩
    · simp [place.1]
    · simp [place.2]
    · omega

/-- A reader behind the last whole record finds less than a length. -/
theorem Inv.readFile_short (last : k = (s.committed s.serial).length) (whole : ¬ s.Torn) :
    ∃ rd, readFile s .length =
        (.going, { s with pos := s.pos + rd, reader := .short .length rd }) ∧
      Inv lim first { s with pos := s.pos + rd, reader := .short .length rd } := by
  simp only [At, phase, last, take_length] at place
  have rest := inv.drop_content k
  rw [last, take_length, drop_length, flatten_nil, nil_append] at rest
  have few : (if s.serial = s.maxSerial then s.partialBytes else []).length < 4 := by
    split_ifs with newest
    · by_contra many
      refine whole ⟨newest, by rw [phase]; rfl, ?_, by omega⟩
      rw [place.1, place.2, newest]
    · simp
  have size : (if s.serial = s.maxSerial then s.partialBytes else []).length =
      if s.serial = s.maxSerial then s.partialBytes.length else 0 := by
    split_ifs <;> rfl
  refine ⟨if s.serial = s.maxSerial then s.partialBytes.length else 0, ?_, ?_⟩
  · have got : ((s.content s.serial).drop s.pos).take 4 =
        if s.serial = s.maxSerial then s.partialBytes else [] := by
      rw [place.1, place.2, rest, take_of_length_le (by omega)]
    simp only [readFile, inv.isOpen, if_true, Want.size, got]
    rw [if_neg (by omega), size]
  · refine { inv with place := ⟨k, last.le, ?_, past⟩ }
    exact ⟨last, place.2, by simp [place.1], by rwa [← size], rfl⟩

end

/-- Behind the length of a record, the reader returns the record. -/
theorem Inv.readFile_body {head : List UInt8} {len : Nat}
    (phase : s.reader = .reading (.body head len)) (place : s.At k) (past : s.Past first k) :
    ∃ r t, readFile s (.body head len) = (.record r, t) ∧ Inv lim first t := by
  simp only [At, phase] at place
  obtain ⟨samePos, isOffset, r, isRecord, rfl, length⟩ := place
  obtain ⟨bound, isGet⟩ := List.getElem?_eq_some_iff.mp isRecord
  obtain ⟨rest, isRest⟩ := inv.drop_content_cons isRecord
  have got : ((s.content s.serial).drop s.pos).take len = r.drop 4 := by
    rw [samePos, isOffset, ← drop_drop, isRest, drop_append_of_le_length (by omega),
      take_append_of_le_length (by simp; omega), take_of_length_le (by simp; omega)]
  refine ⟨r, { s with
    pos := s.pos + len, offset := s.offset + len, reader := .reading .length,
    delivered := s.delivered ++ [r] }, ?_, ?_⟩
  · have full : (r.drop 4).length = len := by simp; omega
    simp only [readFile, inv.isOpen, if_true, Want.size, got, full, take_append_drop]
  · refine { inv with place := ⟨k + 1, bound, ⟨by simp [samePos], ?_⟩, ?_⟩ }
    · simp only
      rw [take_succ_eq_append_getElem bound, isGet, isOffset, flatten_append,
        length_append, flatten_singleton, length]
      omega
    · obtain ⟨skipped, missing, same⟩ := past
      refine ⟨skipped, missing, ?_⟩
      simp only
      rw [take_succ_eq_append_getElem bound, isGet, same, append_assoc]

end

/-- The scan of the directory: the largest number of a file, or 0. -/
theorem scanMax_spec (s : State) :
    (s.scanMax = 0 ∨ s.linked s.scanMax = true ∧ s.scanMax ≤ s.maxSerial) ∧
      ∀ n, n ≤ s.maxSerial → s.linked n = true → n ≤ s.scanMax := by
  have scan : ∀ m, let max := (range m).foldl (fun max v => if s.linked v then v else max) 0
      (max = 0 ∨ s.linked max = true ∧ max < m) ∧ ∀ n, n < m → s.linked n = true → n ≤ max := by
    intro m
    induction m with
    | zero => simp
    | succ m ih =>
      obtain ⟨isMax, above⟩ := ih
      simp only [range_succ, foldl_append, foldl_cons, foldl_nil] at isMax above ⊢
      by_cases there : s.linked m = true
      · rw [if_pos there]
        exact ⟨.inr ⟨there, by omega⟩, fun n less _ => by omega⟩
      · rw [if_neg there]
        refine ⟨isMax.imp_right fun h => ⟨h.1, by omega⟩, fun n less isThere => ?_⟩
        have : n ≠ m := fun same => there (same ▸ isThere)
        exact above n (by omega) isThere
  obtain ⟨isMax, above⟩ := scan (s.maxSerial + 1)
  exact ⟨isMax.imp_right fun h => ⟨h.1, Nat.le_of_lt_succ h.2⟩,
    fun n le isThere => above n (Nat.lt_succ_of_le le) isThere⟩

/-- The next file is opened, and only missing ones are passed over. -/
theorem openFrom_spec {serial n : Nat} (there : s.linked (serial + n) = true) :
    ∃ next, s.openFrom serial n = (next, true) ∧ serial ≤ next ∧ next ≤ serial + n ∧
      s.linked next = true ∧ ∀ j, serial ≤ j → j < next → s.linked j = false := by
  induction n generalizing serial with
  | zero =>
    refine ⟨serial, by simp [openFrom, show s.linked serial = true from there], le_refl _,
      le_refl _, there, fun j low high => by omega⟩
  | succ n ih =>
    by_cases here : s.linked serial = true
    · exact ⟨serial, by simp [openFrom, here], le_refl _, by omega, here,
        fun j low high => by omega⟩
    · have above : s.linked (serial + 1 + n) = true := by
        rwa [Nat.add_right_comm, Nat.add_assoc]
      obtain ⟨next, isNext, low, high, isThere, missing⟩ := ih above
      refine ⟨next, by simp [openFrom, here, isNext], by omega, by omega, isThere, ?_⟩
      intro j jLow jHigh
      by_cases first : j = serial
      · rw [first]
        exact Bool.eq_false_iff.mpr here
      · exact missing j (by omega) jHigh

/-- The files up to the reader's, with all behind it passed over. -/
theorem filter_range'_split {skipped : Nat → Bool} {serial m : Nat} (low : first ≤ serial)
    (high : serial < m) (kept : ∀ n, skipped n = true → n < serial) :
    ((range' first (m - first)).filter fun n => !(skipped n || decide (serial < n))) =
      ((range' first (serial - first)).filter fun n => !skipped n) ++ [serial] := by
  have split : range' first (m - first) = range' first (serial - first) ++
      (serial :: range' (serial + 1) (m - serial - 1)) := by
    have tail : serial :: range' (serial + 1) (m - serial - 1) =
        range' (first + (serial - first)) (m - serial - 1 + 1) := by
      rw [Nat.add_sub_cancel' low, range'_succ]
    rw [tail, range'_append_1]
    congr 1
    omega
  have here : skipped serial = false := by
    rw [Bool.eq_false_iff]
    exact fun skip => absurd (kept serial skip) (by omega)
  have none_left : ((range' (serial + 1) (m - serial - 1)).filter
      fun n => !(skipped n || decide (serial < n))) = [] := by
    refine filter_eq_nil_iff.mpr fun n mem => ?_
    have := (mem_range'_1.mp mem).1
    simp [show serial < n by omega]
  rw [split, filter_append, filter_cons_of_pos (by simp [here]), none_left]
  congr 1
  refine filter_congr fun n mem => ?_
  have := (mem_range'_1.mp mem).2
  simp [show ¬ serial < n by omega]

section
variable (inv : Inv lim first s)

include inv

theorem Inv.linked_le {n : Nat} (there : s.linked n = true) :
    n ≤ s.maxSerial ∧ ∃ f, s.files n = some f := by
  obtain ⟨f, isFile, -⟩ : ∃ f, s.files n = some f ∧ f.linked = true := by
    simpa [linked, Option.any_eq_true] using there
  exact ⟨(inv.content n f isFile).1, f, isFile⟩

/-- Without a later file, a reader at the end of its file has returned all there is. -/
theorem Inv.complete (past : s.Past first (s.committed s.serial).length)
    (last : ¬ s.serial < s.scanMax) : s.Complete first := by
  obtain ⟨skipped, missing, same⟩ := past
  refine ⟨fun n => skipped n || decide (s.serial < n), fun n skip => ?_, ?_⟩
  · rcases Bool.or_eq_true_iff.mp skip with skip | skip
    · exact (missing n skip).2
    · have := of_decide_eq_true skip
      by_contra there
      rw [Bool.not_eq_false] at there
      have := (scanMax_spec s).2 n (inv.linked_le there).1 there
      omega
  · rw [filter_range'_split inv.low (Nat.lt_succ_of_le inv.serial_le) fun n skip => (missing n skip).1,
      same, take_length]
    simp

/-- The next file: the reader is at its start, and has returned all of the files before. -/
theorem Inv.readShort_next {rd : Nat} (phase : s.reader = .short .length rd)
    (more : s.serial < s.scanMax) :
    ∃ t : State, s.serial < t.serial ∧ t.maxSerial = s.maxSerial ∧ t.partialBytes = s.partialBytes ∧
      readShort s .length rd = (.going, t) ∧ Inv lim first t := by
  obtain ⟨k, -, place, past⟩ := inv.place
  simp only [At, phase] at place
  obtain ⟨isMax, -⟩ := scanMax_spec s
  obtain ⟨maxThere, -⟩ := isMax.resolve_left (by omega)
  have there : s.linked (s.serial + 1 + (s.scanMax - (s.serial + 1))) = true := by
    rwa [Nat.add_sub_cancel' more]
  obtain ⟨next, isNext, low, high, isThere, between⟩ := openFrom_spec there
  refine ⟨{ s with
    serial := next, isOpen := true, offset := 0, pos := 0, reader := .reading .length }, low, rfl,
    rfl, by simp [readShort, more, isNext], ?_⟩
  obtain ⟨-, f, isFile⟩ := inv.linked_le isThere
  refine ⟨inv.bounded, inv.content, inv.absent, inv.framed, inv.newest, inv.sized, rfl,
    le_trans inv.low (by simp only; omega), ⟨f, isFile⟩, 0, Nat.zero_le _, ⟨rfl, by simp⟩, ?_⟩
  obtain ⟨skipped, missing, same⟩ := past
  refine ⟨fun n => skipped n || decide (s.serial < n) && decide (n < next), fun n skip => ?_, ?_⟩
  · rcases Bool.or_eq_true_iff.mp skip with skip | skip
    · obtain ⟨below, gone⟩ := missing n skip
      exact ⟨by simp only; omega, gone⟩
    · simp only [Bool.and_eq_true, decide_eq_true_eq] at skip
      exact ⟨skip.2, between n (by omega) skip.2⟩
  · have files := filter_range'_split inv.low (show s.serial < next by omega) fun n skip =>
      (missing n skip).1
    have inside : ((range' first (next - first)).filter fun n =>
        !(skipped n || decide (s.serial < n) && decide (n < next))) =
        (range' first (next - first)).filter fun n => !(skipped n || decide (s.serial < n)) := by
      refine filter_congr fun n mem => ?_
      have := (mem_range'_1.mp mem).2
      have low := inv.low
      simp [show n < next by omega]
    simp only [inside, files, same, place.1, take_length, take_zero]
    simp

section
variable (small : lim.maxSize + 4 ≤ 2 ^ 32)

include small

/-- Going back to the start of a record of which less than the length is there. -/
theorem Inv.seek_back {rd : Nat} (phase : s.reader = .short .length rd) (some_read : 0 < rd) :
    seek s = { s with pos := s.offset } := by
  obtain ⟨k, -, place, -⟩ := inv.place
  simp only [At, phase] at place
  obtain ⟨-, isOffset, -, few, isRd⟩ := place
  have newest : s.serial = s.maxSerial := by
    by_contra older
    rw [if_neg older] at isRd
    omega
  rw [if_pos newest] at isRd
  obtain ⟨record, done, writing⟩ : ∃ record done, s.writer = .writing record done := by
    match writer : s.writer with
    | .writing record done => exact ⟨record, done, rfl⟩
    | .idle | .written _ | .rotating =>
      simp [partialBytes, writer] at isRd
      omega
  have sized := inv.sized
  simp only [Sized, writing] at sized
  have there : s.linked s.serial = true := by
    rw [newest]
    exact inv.newest (by simp [Steady, writing])
  have length : (s.content s.serial).length = s.offset + rd := by
    obtain ⟨f, isFile⟩ := inv.exists_file
    have content : s.content s.serial = f.content := by simp [State.content, isFile]
    rw [content, (inv.content _ f isFile).2, if_pos newest, length_append, isOffset, isRd]
  have bound : s.offset + rd < 2 ^ 32 := by
    rw [newest, ← sized.1] at isOffset
    omega
  have low : s.offset % 2 ^ 32 = s.offset := Nat.mod_eq_of_lt (by omega)
  rw [seek, if_pos there, length, low, Nat.mod_eq_of_lt bound, if_neg (by omega)]

theorem Inv.readShort_last {rd : Nat} (phase : s.reader = .short .length rd)
    (last : ¬ s.serial < s.scanMax) :
    readShort s .length rd = (.failed, { s with pos := s.offset, reader := .reading .length }) ∧
      Inv lim first { s with pos := s.offset, reader := .reading .length } ∧ s.Complete first := by
  obtain ⟨k, bound, place, past⟩ := inv.place
  have isPlace := place
  simp only [At, phase] at isPlace
  refine ⟨?_, ?_, inv.complete (isPlace.1 ▸ past) last⟩
  · by_cases some_read : 0 < rd
    · simp [readShort, last, some_read, inv.seek_back small phase some_read]
    · have : s.pos = s.offset := by omega
      simp [readShort, last, some_read, ← this]
  · refine { inv with place := ⟨k, bound, ⟨rfl, ?_⟩, past⟩ }
    simp only [isPlace.1, take_length]
    exact isPlace.2.1

/-- One step of the reader. -/
theorem Inv.read (whole : ¬ s.Torn) :
    Inv lim first (step lim s .read).2 ∧ ((step lim s .read).1 = .failed → s.Complete first) := by
  obtain ⟨k, bound, place, past⟩ := inv.place
  rw [step]
  match phase : s.reader with
  | .reading .length =>
    simp only
    by_cases last : k = (s.committed s.serial).length
    · obtain ⟨rd, result, kept⟩ := inv.readFile_short phase place past last whole
      rw [result]
      exact ⟨kept, fun failed => by cases failed⟩
    · have isRecord : (s.committed s.serial)[k]? = some _ :=
        getElem?_eq_getElem (lt_of_le_of_ne bound last)
      obtain ⟨t, result, kept, -⟩ := inv.readFile_length phase place past isRecord
      rw [result]
      exact ⟨kept, fun failed => by cases failed⟩
  | .reading (.body head len) =>
    obtain ⟨r, t, result, kept⟩ := inv.readFile_body phase place past
    simp only [result]
    exact ⟨kept, fun failed => by cases failed⟩
  | .short .length rd =>
    simp only
    by_cases more : s.serial < s.scanMax
    · obtain ⟨t, -, -, -, result, kept⟩ := inv.readShort_next phase more
      rw [result]
      exact ⟨kept, fun failed => by cases failed⟩
    · obtain ⟨result, kept, complete⟩ := inv.readShort_last small phase more
      rw [result]
      exact ⟨kept, fun _ => complete⟩
  | .short (.body head len) rd => simp [At, phase] at place

/-- Every step of a run keeps the invariant. -/
theorem Inv.step {event : Event} (legal : Legal s event) : Inv lim first (step lim s event).2 := by
  cases event with
  | commit record =>
    rw [Binlog.step]
    split
    next idle => exact inv.commit idle legal
    next => exact inv
  | put n =>
    rw [Binlog.step]
    split
    next record done writing =>
      split_ifs
      · exact inv
      · exact inv.put writing legal
    next => exact inv
  | finish =>
    rw [Binlog.step]
    split
    next size written => exact inv.finish written
    next => exact inv
  | create =>
    rw [Binlog.step]
    split
    next rotating => exact inv.create rotating legal
    next => exact inv
  | read => exact (inv.read small legal).1

end

end

/-- A call of `Read` that is left alone returns. -/
def Ends (lim : Limits) (s : State) : Prop :=
  ∃ n, ∃ reply ∈ replies (Binlog.step lim) s (List.replicate n .read), reply ≠ .going

theorem Ends.now (returned : (Binlog.step lim s .read).1 ≠ .going) : Ends lim s :=
  ⟨1, _, mem_singleton.mpr rfl, returned⟩

theorem Ends.later (next : Ends lim (Binlog.step lim s .read).2) : Ends lim s := by
  obtain ⟨n, reply, mem, returned⟩ := next
  exact ⟨n + 1, reply, mem_cons_of_mem _ mem, returned⟩

theorem Inv.ends (inv : Inv lim first s) (small : lim.maxSize + 4 ≤ 2 ^ 32)
    (few : s.partialBytes.length < 4) : Ends lim s := by
  induction left : s.maxSerial - s.serial using Nat.strong_induction_on generalizing s with
  | _ d ih =>
    -- from a short read on, either the call fails or the next file is closer to the newest
    have short : ∀ t : State, Inv lim first t → t.maxSerial = s.maxSerial →
        t.serial = s.serial → t.partialBytes = s.partialBytes →
        ∀ rd, t.reader = .short .length rd → Ends lim t := by
      intro t tInv sameMax sameSerial samePart rd phase
      by_cases more : t.serial < t.scanMax
      · obtain ⟨u, later, uMax, uPart, result, kept⟩ := tInv.readShort_next phase more
        have le := kept.serial_le
        refine Ends.later ?_
        simp only [Binlog.step, phase, result]
        refine ih (u.maxSerial - u.serial) (by omega) kept ?_ rfl
        rwa [uPart, samePart]
      · obtain ⟨result, -, -⟩ := tInv.readShort_last small phase more
        refine Ends.now ?_
        simp only [Binlog.step, phase, result]
        exact fun going => by cases going
    have body : ∀ t : State, Inv lim first t → ∀ head len,
        t.reader = .reading (.body head len) → Ends lim t := by
      intro t tInv head len phase
      obtain ⟨k, -, place, past⟩ := tInv.place
      obtain ⟨r, u, result, -⟩ := tInv.readFile_body phase place past
      refine Ends.now ?_
      simp only [Binlog.step, phase, result]
      exact fun going => by cases going
    obtain ⟨k, bound, place, past⟩ := inv.place
    match phase : s.reader with
    | .reading .length =>
      by_cases last : k = (s.committed s.serial).length
      · have whole : ¬ s.Torn := fun torn => absurd torn.2.2.2 (by omega)
        obtain ⟨rd, result, kept⟩ := inv.readFile_short phase place past last whole
        refine Ends.later ?_
        simp only [Binlog.step, phase, result]
        exact short _ kept rfl rfl rfl rd rfl
      · have isRecord : (s.committed s.serial)[k]? = some _ :=
          getElem?_eq_getElem (lt_of_le_of_ne bound last)
        obtain ⟨t, result, kept, reading⟩ := inv.readFile_length phase place past isRecord
        refine Ends.later ?_
        simp only [Binlog.step, phase, result]
        exact body t kept _ _ reading
    | .reading (.body head len) => exact body s inv head len phase
    | .short .length rd => exact short s inv rfl rfl rfl rd phase
    | .short (.body head len) rd => simp [At, phase] at place

end Reader

/-- The writer has opened a new file, and the reader has opened the first file there is. All
files are made of whole records within the limit. -/
structure Start (first : Nat) (s : State) : Prop where
  bounded : s.maxSerial < 2 ^ 32
  content : ∀ n f, s.files n = some f → n ≤ s.maxSerial ∧ f.content = (s.committed n).flatten
  absent : ∀ n, s.files n = none → s.committed n = []
  framed : ∀ n, ∀ r ∈ s.committed n, Framed r
  newest : s.files s.maxSerial = some ⟨[], true⟩
  writer : s.writer = .idle
  curSize : s.curSize = 0
  serial : s.serial = first
  exists_file : ∃ f, s.files first = some f
  offset : s.offset = 0
  pos : s.pos = 0
  isOpen : s.isOpen = true
  reader : s.reader = .reading .length
  delivered : s.delivered = []

theorem Start.inv (start : Start first s) : Inv lim first s := by
  have part : s.partialBytes = [] := by simp [partialBytes, start.writer]
  have empty : (s.committed s.maxSerial).flatten = [] := (start.content _ _ start.newest).2.symm
  refine ⟨start.bounded, ?_, start.absent, start.framed, ?_, ?_, start.isOpen, start.serial.ge,
    start.serial ▸ start.exists_file, 0, Nat.zero_le _, ?_, ?_⟩
  · intro n f isFile
    rw [part, ite_self, append_nil]
    exact start.content n f isFile
  · intro _
    simp [linked, start.newest]
  · simp [Sized, start.writer, start.curSize, empty]
  · simp [At, start.reader, start.pos, start.offset]
  · refine ⟨fun _ => false, fun n skip => ?_, by simp [start.delivered, start.serial]⟩
    cases skip

/-- In every run whose steps are legal, the reader has returned all records of the files
behind it that have not been removed, and the first records of its file, in order and once
each; `Read` returns without a record only when all have been returned; and it does return.
Of every record that is returned, `record_pointer` and `record_length` give the bodies. -/
theorem binlog_delivered {lim : Limits} {first : Nat} {s₀ : State} {events : List Event}
    (small : lim.maxSize + 4 ≤ 2 ^ 32) (start : Start first s₀)
    (legal : Admitted Legal (step lim) s₀ events) :
    (∃ k, (final (step lim) s₀ events).Past first k) ∧
      (¬ (final (step lim) s₀ events).Torn →
        (step lim (final (step lim) s₀ events) .read).1 = .failed →
        (final (step lim) s₀ events).Complete first) ∧
      ((final (step lim) s₀ events).partialBytes.length < 4 →
        Ends lim (final (step lim) s₀ events)) ∧
      ∀ r : Record, r.bytes.length < 2 ^ 20 + 4 → ∀ i (bound : i < r.bodies.length),
        (r.bytes.drop (recordPointer r.bytes i)).take (recordLength r.bytes i) = r.bodies[i] := by
  have inv : Inv lim first (final (step lim) s₀ events) :=
    final_invariant (Inv lim first) (fun s event inv legal => inv.step small legal) start.inv legal
  obtain ⟨k, -, -, past⟩ := id inv.place
  refine ⟨⟨k, past⟩, fun whole => (inv.read small whole).2, inv.ends small, ?_⟩
  intro r small i bound
  exact record_access (by omega) bound

/-- One empty file, opened by both. -/
def emptyLog : State where
  files := fun n => if n = 1 then some ⟨[], true⟩ else none
  curSize := 0
  maxSerial := 1
  minSerial := 1
  writer := .idle
  serial := 1
  offset := 0
  pos := 0
  isOpen := true
  reader := .reading .length
  committed := fun _ => []
  delivered := []

theorem start_emptyLog : Start 1 emptyLog := by
  refine ⟨by decide, ?_, fun _ _ => rfl, ?_, rfl, rfl, rfl, rfl, ⟨_, rfl⟩, rfl, rfl, rfl, rfl, rfl⟩
  · intro n f isFile
    simp only [emptyLog] at isFile ⊢
    split_ifs at isFile with isFirst
    cases isFile
    exact ⟨isFirst.le, rfl⟩
  · intro n r mem
    cases mem

/-- A record with one body of one byte. -/
def oneByte : Record := ⟨1, 0, 0, 1, [[7]]⟩

/-- The record is written in two pieces, of which the reader sees the first. -/
theorem binlog_delivered_two_pieces :
    (final (step ⟨1000, 10000⟩) emptyLog
      [.commit oneByte, .put 3, .read, .read, .put 30, .finish, .read, .read]).delivered =
        [oneByte.bytes] ∧
    ∃ k, (final (step ⟨1000, 10000⟩) emptyLog
      [.commit oneByte, .put 3, .read, .read, .put 30, .finish, .read, .read]).Past 1 k :=
  ⟨by decide +kernel, (binlog_delivered (by decide) start_emptyLog (by decide +kernel)).1⟩

/-- The reader sees the length of the record and six more bytes before the rest. -/
def tornRun : State :=
  final (step ⟨1000, 10000⟩) emptyLog
    [.commit oneByte, .put 10, .read, .read, .read, .put 30, .finish, .read, .read]

/-- The record is written, and the next file opened, between a short read and the scan. -/
def lateRun : State :=
  final (step ⟨10, 10000⟩) emptyLog [.read, .commit oneByte, .put 30, .finish, .create, .read]

/-- The record is in the first file, which is not removed. In the first run `Read` fails,
because it has gone on behind the length of the record; in the second the reader has gone on
to the next file. -/
theorem torn_record_lost :
    (tornRun.committed 1 = [oneByte.bytes] ∧ tornRun.linked 1 = true ∧ tornRun.delivered = [] ∧
      (step ⟨1000, 10000⟩ tornRun .read).1 = .failed) ∧
    lateRun.committed 1 = [oneByte.bytes] ∧ lateRun.linked 1 = true ∧ lateRun.delivered = [] ∧
      lateRun.serial = 2 := by
  decide +kernel

end Dtc.Binlog
