import Cs241.Net.Model

/-!
# Requests and answers without streams

What a round of the server does depends on the bytes of the connection only, not
on the pieces in which they pass: it is one function of the parsed request.
-/
namespace Cs241.Net

open Foundation

variable {env : Env} {s : Server} {input input' : Source UInt8} {output : Sink UInt8}

@[simp] theorem send_sent (bytes : List UInt8) : (send output bytes).sent = output.sent ++ bytes :=
  Sink.writeAll_sent bytes output

theorem read_of_le {count : ℕ} (h : count ≤ input.rest.length) :
    ∃ input', readAllFromSocket input count = (count, input.rest.take count, input') ∧
      input'.rest = input.rest.drop count :=
  Source.readAll_of_le h

theorem read_of_lt {count : ℕ} (h : input.rest.length < count) :
    ∃ input', readAllFromSocket input count = (0, input.rest, input') ∧ input'.rest = [] :=
  Source.readAll_of_lt h

/-! ## The header -/

/-- Two results of reading that differ in the plans at most. -/
def Agree {α : Type*} (p q : α × Source UInt8) : Prop := p.1 = q.1 ∧ p.2.rest = q.2.rest

theorem Agree.elim {α : Type*} {p q : α × Source UInt8} (h : Agree p q) :
    ∃ x a b, p = (x, a) ∧ q = (x, b) ∧ a.rest = b.rest :=
  ⟨p.1, p.2, q.2, rfl, Prod.ext h.1.symm rfl, h.2⟩

theorem readAll_agree (h : input.rest = input'.rest) (count : ℕ) :
    ∃ retval placed a b, readAllFromSocket input count = (retval, placed, a) ∧
      readAllFromSocket input' count = (retval, placed, b) ∧ a.rest = b.rest := by
  refine ⟨(input.readAll count).1, (input.readAll count).2.1, (input.readAll count).2.2,
    (input'.readAll count).2.2, rfl, Prod.ext ?_ (Prod.ext ?_ rfl), ?_⟩
  · simp only [Source.readAll_fst, h]
  · simp only [Source.readAll_placed, h]
  · simp only [Source.readAll_rest, h]

theorem getCmd_agree (h : input.rest = input'.rest) : Agree (getCmd input) (getCmd input') := by
  obtain ⟨_, buf, a, b, ha, hb, hab⟩ := readAll_agree h 3
  unfold getCmd
  rw [ha, hb]
  dsimp only
  split_ifs <;> exact ⟨rfl, by simp only [Source.readAll_rest, hab]⟩

theorem fileNameLoop_agree : ∀ {left : ℕ} {buf : List UInt8} {input input' : Source UInt8},
    input.rest = input'.rest →
      Agree (fileNameLoop env left buf input) (fileNameLoop env left buf input')
  | 0, _, _, _, h => ⟨rfl, h⟩
  | left + 1, buf, input, input', h => by
    obtain ⟨_, placed, a, b, ha, hb, hab⟩ := readAll_agree h 1
    unfold fileNameLoop
    rw [ha, hb]
    dsimp only
    split_ifs
    · exact ⟨rfl, hab⟩
    · exact fileNameLoop_agree hab

theorem getFileName_agree (h : input.rest = input'.rest) :
    Agree (getFileName env input) (getFileName env input') :=
  fileNameLoop_agree h

theorem getMessageSize_agree (h : input.rest = input'.rest) :
    Agree (getMessageSize input) (getMessageSize input') := by
  obtain ⟨retval, placed, a, b, ha, hb, hab⟩ := readAll_agree h 8
  unfold getMessageSize
  rw [ha, hb]
  dsimp only
  split_ifs <;> exact ⟨rfl, hab⟩

theorem processHeader_agree (h : input.rest = input'.rest) :
    Agree (processHeader env input) (processHeader env input') := by
  obtain ⟨cmd, a, b, ha, hb, hab⟩ := (getCmd_agree h).elim
  unfold processHeader
  rw [ha, hb]
  cases cmd with
  | none => exact ⟨rfl, hab⟩
  | some cmd =>
    obtain ⟨fileName, a, b, ha, hb, hab⟩ := (getFileName_agree hab).elim
    dsimp only
    rw [ha, hb]
    cases fileName with
    | none => exact ⟨rfl, hab⟩
    | some fileName =>
      obtain ⟨fileSize, a, b, ha, hb, hab⟩ := (getMessageSize_agree hab).elim
      dsimp only
      rw [ha, hb]
      split_ifs
      · exact ⟨rfl, hab⟩
      · exact ⟨rfl, ‹_›⟩

/-- A request: the header and the bytes that follow it. -/
structure Request extends Header where
  body : List UInt8
deriving DecidableEq

/-- The request in the bytes of a connection, if the server takes them for one. -/
def Request.parse (env : Env) (bytes : List UInt8) : Option Request :=
  let (header, input) := processHeader env ⟨bytes, []⟩
  header.map fun h => ⟨h, input.rest⟩

theorem processHeader_bare (input : Source UInt8) :
    Agree (processHeader env ⟨input.rest, []⟩) (processHeader env input) :=
  processHeader_agree rfl

theorem parse_none (h : Request.parse env input.rest = none) :
    ∃ input', processHeader env input = (none, input') := by
  obtain ⟨header, a, b, ha, hb, -⟩ := (processHeader_bare input).elim
  unfold Request.parse at h
  rw [ha] at h
  obtain rfl : header = none := Option.map_eq_none_iff.mp h
  exact ⟨b, hb⟩

theorem parse_some {r : Request} (h : Request.parse env input.rest = some r) :
    ∃ input', processHeader env input = (some r.toHeader, input') ∧ input'.rest = r.body := by
  obtain ⟨header, a, b, ha, hb, hab⟩ := (processHeader_bare input).elim
  unfold Request.parse at h
  rw [ha] at h
  obtain ⟨header, rfl, rfl⟩ := Option.map_eq_some_iff.mp h
  exact ⟨b, hb, hab.symm⟩

/-! ## Names -/

/-- The name of a file in the directory. -/
structure PlainName (name : Name) : Prop where
  no_slash : 47 ∉ name
  not_dir : ¬ (name = [] ∨ name = [46] ∨ name = [46, 46])

theorem PlainName.node {name : Name} (h : PlainName name) : env.node name = some name := by
  rw [Env.node, if_neg h.no_slash, if_neg h.not_dir]

instance {name : Name} : Decidable (PlainName name) :=
  decidable_of_iff (47 ∉ name ∧ ¬ (name = [] ∨ name = [46] ∨ name = [46, 46]))
    ⟨fun ⟨h₁, h₂⟩ => ⟨h₁, h₂⟩, fun ⟨h₁, h₂⟩ => ⟨h₁, h₂⟩⟩

/-! ## The answer -/

/-- What is sent for a bad request: as many bytes as `err_no_such_file` has. -/
def badRequest (env : Env) : List UInt8 :=
  (List.range env.errNoSuchFile.length).map env.errBadRequest

/-- The names of the files, one in a line. -/
def listing (s : Server) : List UInt8 := [10].intercalate s.files

/-- The new state and the answer; `none` where the server hangs. -/
def respond (env : Env) (s : Server) : Option Request → Option (Server × List UInt8)
  | none => some (s, badRequest env)
  | some r =>
    match r.cmd with
    | .list => some (s, ok ++ wordBytes (listing s).length ++ listing s)
    | .delete =>
      if r.fileName ∈ s.files then
        some (⟨s.files.erase r.fileName, s.disk.remove env r.fileName⟩, ok)
      else some (s, error ++ env.errNoSuchFile)
    | .get =>
      if r.fileName ∈ s.files then
        match s.disk.contents env r.fileName with
        | some bytes => some (s, ok ++ wordBytes bytes.length ++ bytes)
        | none => if env.statSize r.fileName = 0 then some (s, ok ++ wordBytes 0) else none
      else some (s, [])
    | .put =>
      match s.disk.create env r.fileName with
      | some (node, disk) =>
        if r.body.length = r.fileSize then
          some (⟨s.files ++ [r.fileName], { disk with files := disk.files.insert node r.body }⟩, [])
        else some (⟨s.files, disk.remove env r.fileName⟩, error ++ env.errBadFileSize)
      | none =>
        if r.fileSize = 0 ∨ r.body.length < min 1024 r.fileSize then
          if r.body.length = r.fileSize then some (⟨s.files ++ [r.fileName], s.disk⟩, [])
          else some (⟨s.files, s.disk.remove env r.fileName⟩, error ++ env.errBadFileSize)
        else none

theorem listLoop_sent : ∀ (names : List Name) (output : Sink UInt8),
    (listLoop (names.length - 1) names output).sent = output.sent ++ [10].intercalate names
  | [], output => by simp [listLoop, List.intercalate]
  | [name], output => by simp [listLoop, List.intercalate]
  | name :: name' :: names, output => by
    have ih := listLoop_sent (name' :: names) (send (send output name) [10])
    have hpos : 0 < (name :: name' :: names).length - 1 := by simp
    rw [listLoop, if_pos hpos]
    apply ih.trans
    simp [List.intercalate]

theorem length_listing (s : Server) :
    (listing s).length = (s.files.map fun name => name.length + 1).sum - 1 := by
  unfold listing
  generalize s.files = names
  induction names with
  | nil => rfl
  | cons name names ih =>
    cases names with
    | nil => simp [List.intercalate]
    | cons name' names =>
      simp [List.intercalate] at ih ⊢
      omega

theorem list_sent : (list s output).sent =
    output.sent ++ (ok ++ wordBytes (listing s).length ++ listing s) := by
  unfold list
  dsimp only
  rw [← length_listing, listLoop_sent, ← listing]
  simp

theorem delete_respond (fileName : Name) : ((delete env s fileName output).1,
    (delete env s fileName output).2.sent) = if fileName ∈ s.files then
      (⟨s.files.erase fileName, s.disk.remove env fileName⟩, output.sent ++ ok)
    else (s, output.sent ++ (error ++ env.errNoSuchFile)) := by
  unfold delete
  dsimp only
  by_cases h : fileName ∈ s.files
  · rw [if_pos (List.idxOf_lt_length_iff.mpr h), if_pos h, List.erase_eq_eraseIdx_of_idxOf rfl]
    simp
  · rw [if_neg (List.idxOf_lt_length_iff.not.mpr h), if_neg h]
    simp

theorem getLoop_sent {left : ℕ} {file : Source UInt8} (h : left ≤ file.rest.length) :
    (getLoop left file output).sent = output.sent ++ file.rest.take left := by
  fun_induction getLoop left file output with
  | case1 left file output hlt n read written ih =>
    have hn : n ≤ left := Nat.min_le_right ..
    obtain ⟨file', hread, hrest⟩ := Source.readAll_of_le (hn.trans h)
    have hwritten : written = writeAllToSocket output (file.rest.take n) := by
      have hlen : (file.rest.take n).length = n := by
        rw [List.length_take]
        omega
      simp only [written, read, hread, hlen, Nat.sub_self, List.replicate_zero, List.append_nil]
    have hsent : written.2.sent = output.sent ++ file.rest.take n := by
      rw [hwritten, Sink.writeAll_sent]
    have hcount : written.1 = n := by
      rw [hwritten, Sink.writeAll_fst, List.length_take]
      omega
    have hleft : read.2.2.rest = file.rest.drop n := by
      rw [show read = (n, file.rest.take n, file') from hread, hrest]
    rw [ih (by rw [hleft, List.length_drop]; omega), hsent, hleft, hcount, List.append_assoc,
      ← List.take_add, show n + (left - n) = left by omega]
  | case2 left file output hlt =>
    obtain rfl : left = 0 := by omega
    simp

theorem get_respond {r : Request} (hcmd : r.cmd = .get) :
    (get env s r.fileName output).map (fun output => (s, output.sent)) =
      (respond env s (some r)).map fun x => (x.1, output.sent ++ x.2) := by
  simp only [respond, hcmd]
  unfold get
  by_cases hmem : r.fileName ∈ s.files
  · rw [if_pos hmem, if_pos hmem]
    cases s.disk.contents env r.fileName with
    | some bytes => simp [getLoop_sent]
    | none =>
      by_cases hsize : env.statSize r.fileName = 0
      · simp [hsize]
      · simp [hsize]
  · rw [if_neg hmem, if_neg hmem]
    simp

/-- All bytes come. -/
theorem putLoop_of_le {left : ℕ} (bytes : List UInt8) (h : left ≤ input.rest.length) :
    ∃ input', putLoop left (some bytes) input =
      some (true, some (bytes ++ input.rest.take left), input') ∧
        input'.rest = input.rest.drop left := by
  induction left using Nat.strong_induction_on generalizing bytes input with
  | _ left ih =>
    rw [putLoop]
    by_cases hleft : 0 < left
    · have hle : min 1024 left ≤ input.rest.length := (Nat.min_le_right ..).trans h
      obtain ⟨a, hread, hrest⟩ := read_of_le hle
      have hn : min 1024 left ≠ 0 := by omega
      rw [dif_pos hleft, hread]
      dsimp only
      rw [dif_neg hn]
      have hle' : left - min 1024 left ≤ a.rest.length := by
        rw [hrest, List.length_drop]
        omega
      obtain ⟨input', hloop, hrest'⟩ :=
        ih _ (by omega) (bytes ++ input.rest.take (min 1024 left)) hle'
      have hsum : min 1024 left + (left - min 1024 left) = left := by omega
      refine ⟨input', ?_, ?_⟩
      · rw [hloop, hrest, List.append_assoc, ← List.take_add, hsum]
      · rw [hrest', hrest, List.drop_drop, hsum]
    · obtain rfl : left = 0 := by omega
      exact ⟨input, by simp, rfl⟩

/-- Too few bytes come. -/
theorem putLoop_of_lt {left : ℕ} (bytes : List UInt8) (h : input.rest.length < left) :
    ∃ written input', putLoop left (some bytes) input = some (false, written, input') := by
  induction left using Nat.strong_induction_on generalizing bytes input with
  | _ left ih =>
    rw [putLoop, dif_pos (by omega)]
    by_cases hshort : input.rest.length < min 1024 left
    · obtain ⟨a, hread, -⟩ := read_of_lt hshort
      rw [hread]
      exact ⟨_, _, rfl⟩
    · obtain ⟨a, hread, hrest⟩ := read_of_le (Nat.le_of_not_lt hshort)
      rw [hread]
      dsimp only
      rw [dif_neg (by omega)]
      exact ih _ (by omega) _ (by rw [hrest, List.length_drop]; omega)

/-- The file could not be opened. -/
theorem putLoop_none (left : ℕ) : putLoop left none input =
    if left = 0 then some (true, none, input)
    else if input.rest.length < min 1024 left then
      some (false, none, (readAllFromSocket input (min 1024 left)).2.2)
    else none := by
  rw [putLoop]
  by_cases hleft : 0 < left
  · rw [dif_pos hleft, if_neg hleft.ne']
    by_cases hshort : input.rest.length < min 1024 left
    · obtain ⟨a, hread, -⟩ := read_of_lt hshort
      rw [if_pos hshort, hread]
      rfl
    · obtain ⟨a, hread, -⟩ := read_of_le (Nat.le_of_not_lt hshort)
      rw [if_neg hshort, hread]
      dsimp only
      rw [dif_neg (by omega)]
  · obtain rfl : left = 0 := by omega
    simp

/-- The byte that `put` tries to read behind the announced ones. -/
theorem readNext (input : Source UInt8) :
    (readAllFromSocket input 1).1 ≠ 0 ↔ input.rest ≠ [] := by
  cases hrest : input.rest with
  | nil =>
    obtain ⟨a, hread, -⟩ := read_of_lt (show input.rest.length < 1 by simp [hrest])
    simp [hread]
  | cons b bs =>
    obtain ⟨a, hread, -⟩ := read_of_le (show 1 ≤ input.rest.length by simp [hrest])
    simp [hread]

theorem put_respond {r : Request} (hcmd : r.cmd = .put) (hrest : input.rest = r.body) :
    (put env s input output r.toHeader).map (fun x => (x.1, x.2.sent)) =
      (respond env s (some r)).map fun x => (x.1, output.sent ++ x.2) := by
  simp only [respond, hcmd]
  unfold put
  dsimp only
  cases hcreate : s.disk.create env r.fileName with
  | none =>
    dsimp only [Option.map_none, Option.getD_none]
    rw [putLoop_none, hrest]
    by_cases hsize : r.fileSize = 0
    · rw [if_pos hsize, if_pos (.inl hsize)]
      dsimp only
      by_cases hbody : r.body = []
      · rw [if_neg (by simp [readNext, hrest, hbody]), if_pos (by simp [hbody, hsize])]
        simp [Disk.save]
      · rw [if_pos ((readNext input).mpr (hrest ▸ hbody)), if_neg (by simpa [hsize] using hbody)]
        simp
    · by_cases hshort : r.body.length < min 1024 r.fileSize
      · rw [if_neg hsize, if_pos hshort, if_pos (.inr hshort), if_neg (by omega)]
        simp
      · rw [if_neg hsize, if_neg hshort, if_neg (by simp [hsize, hshort])]
        rfl
  | some opened =>
    obtain ⟨node, disk⟩ := opened
    dsimp only [Option.map_some, Option.getD_some]
    by_cases hlt : r.body.length < r.fileSize
    · obtain ⟨written, input', hloop⟩ := putLoop_of_lt [] (hrest ▸ hlt)
      rw [hloop, if_neg (by omega)]
      simp
    · obtain ⟨input', hloop, hrest'⟩ := putLoop_of_le [] (hrest ▸ Nat.le_of_not_lt hlt)
      rw [hloop]
      dsimp only
      rw [hrest] at hrest'
      by_cases hlen : r.body.length = r.fileSize
      · have hnil : input'.rest = [] := by simp [hrest', ← hlen]
        rw [if_neg (by simp [readNext, hnil]), if_pos hlen]
        simp [Disk.save, hrest, ← hlen]
      · have hne : input'.rest ≠ [] := by
          simp [hrest']
          omega
        rw [if_pos ((readNext input').mpr hne), if_neg hlen]
        simp

/-- A round of the server does what `respond` says, in whatever pieces the bytes pass. -/
theorem serve_respond (env : Env) (s : Server) (input : Source UInt8) (output : Sink UInt8) :
    (serve env s input output).map (fun x => (x.1, x.2.sent)) =
      (respond env s (Request.parse env input.rest)).map fun x => (x.1, output.sent ++ x.2) := by
  unfold serve
  cases hparse : Request.parse env input.rest with
  | none =>
    obtain ⟨input', hheader⟩ := parse_none hparse
    rw [hheader]
    simp [respond, badRequest]
  | some r =>
    obtain ⟨input', hheader, hrest⟩ := parse_some hparse
    rw [hheader]
    dsimp only
    cases hcmd : r.cmd with
    | list => simp [respond, hcmd, list_sent]
    | delete =>
      rw [Option.map_some, delete_respond]
      simp only [respond, hcmd]
      split_ifs <;> rfl
    | get =>
      rw [← get_respond hcmd, Option.map_map]
      rfl
    | put => exact put_respond hcmd hrest

variable {s' : Server} {output' : Sink UInt8} {reply : List UInt8}

theorem respond_of_serve (h : serve env s input output = some (s', output')) : ∃ reply,
    respond env s (Request.parse env input.rest) = some (s', reply) ∧
      output'.sent = output.sent ++ reply := by
  have hmap := serve_respond env s input output
  rw [h] at hmap
  obtain ⟨⟨_, reply⟩, hreply, heq⟩ := Option.map_eq_some_iff.mp hmap.symm
  obtain ⟨rfl, hsent⟩ := Prod.mk.inj heq
  exact ⟨reply, hreply, hsent.symm⟩

theorem serve_of_respond (input : Source UInt8) (output : Sink UInt8)
    (h : respond env s (Request.parse env input.rest) = some (s', reply)) : ∃ output',
    serve env s input output = some (s', output') ∧ output'.sent = output.sent ++ reply := by
  have hmap := serve_respond env s input output
  rw [h] at hmap
  obtain ⟨⟨_, output'⟩, hserve, heq⟩ := Option.map_eq_some_iff.mp hmap
  obtain ⟨rfl, hsent⟩ := Prod.mk.inj heq
  exact ⟨output', hserve, hsent⟩

/-! ## A concrete environment -/

/-- The texts `"Bad request\n"`, `"Bad file size\n"` and `"No such file\n"`. -/
def plainEnv : Env where
  errBadRequest := fun i => [66, 97, 100, 32, 114, 101, 113, 117, 101, 115, 116, 10].getD i 0
  errBadFileSize := [66, 97, 100, 32, 102, 105, 108, 101, 32, 115, 105, 122, 101, 10]
  errNoSuchFile := [78, 111, 32, 115, 117, 99, 104, 32, 102, 105, 108, 101, 10]
  pastName := 0
  outside := fun _ => none
  statSize := fun _ => 0

end Cs241.Net
