import Cs241.Net.Requests
import Cs241.Sockets.Transfers

/-!
# A body of any length

`put` writes each chunk to the file with a loop of its own, which may be cut and interrupted as the
loop on the socket. A chunk that the end of the stream cuts short is dropped, and so is the file;
one more byte behind the announced ones has the same effect.
-/
namespace Cs241.Net

open Foundation Sockets

variable (env : Env) (s : Server) (fuel : ℕ) (stale : Sink UInt8 → Stale)

/-- The loop of `put` with `left` bytes to go, on a file that was opened. The result tells whether
all bytes have come. -/
def uploadLoop (left : ℕ) (input : Source UInt8) (file : Sink UInt8) :
    Option (Bool × Source UInt8 × Sink UInt8) :=
  if _ : 0 < left then
    let (retval, placed, input) := readAllFromSocket input (min 1024 left)
    if _ : retval = 0 then some (false, input, file)
    else
      match Server.writeToFile (write placed) fuel (stale file) retval file with
      | none => none
      | some (_, file) => uploadLoop (left - retval) input file
  else some (true, input, file)
termination_by left

/-- `put` on a file that was opened, whose writes are cut according to the plan. -/
def upload (opened : Name × Disk) (plan : List Foundation.Event) (input : Source UInt8)
    (output : Sink UInt8) (h : Header) : Option (Server × Sink UInt8) :=
  let refused : Server × Sink UInt8 :=
    (⟨s.files, opened.2.remove env h.fileName⟩, send (send output error) env.errBadFileSize)
  match uploadLoop fuel stale h.fileSize input ⟨[], plan⟩ with
  | none => none
  | some (false, _, _) => some refused
  | some (true, input, file) =>
    let (actual, _, _) := readAllFromSocket input 1
    if actual ≠ 0 then some refused
    else some (⟨s.files ++ [h.fileName], opened.2.save (some opened) (some file.sent)⟩, output)

variable {env s}

/-! ## The pieces on the disk -/

/-- What the loops in one piece and in many pieces leave: the same, up to the rest of the plan. -/
theorem uploadLoop_of_putLoop {left : ℕ} {bytes written : List UInt8} {input input' : Source UInt8}
    {complete : Bool} (h : putLoop left (some bytes) input = some (complete, some written, input'))
    (file : Sink UInt8) (hfile : file.sent = bytes) : ∃ N file', file'.sent = written ∧
      ∀ fuel ≥ N, uploadLoop fuel stale left input file = some (complete, input', file') := by
  induction left using Nat.strong_induction_on generalizing bytes input file with
  | _ left ih =>
    rw [putLoop] at h
    by_cases hleft : 0 < left
    · rw [dif_pos hleft] at h
      rcases Nat.lt_or_ge input.rest.length (min 1024 left) with hshort | hle
      · obtain ⟨a, hread, -⟩ := read_of_lt hshort
        rw [hread] at h
        obtain ⟨rfl, rfl, rfl⟩ : false = complete ∧ bytes = written ∧ a = input' := by
          simpa using h
        refine ⟨0, file, hfile, fun fuel _ => ?_⟩
        rw [uploadLoop, dif_pos hleft, hread]
        rfl
      · obtain ⟨a, hread, hrest⟩ := read_of_le hle
        have hpos : min 1024 left ≠ 0 := by omega
        rw [hread] at h
        dsimp only at h
        rw [dif_neg hpos] at h
        -- the chunk is written in as many pieces as the plan says
        let chunk := input.rest.take (min 1024 left)
        have hchunk : chunk.length = min 1024 left := by
          rw [List.length_take]
          omega
        obtain ⟨N, file', hsent, hloop⟩ :=
          ih (left - min 1024 left) (by omega) h (file.writeAll chunk).2
            (by rw [Sink.writeAll_sent, hfile])
        refine ⟨N + (chunk.length + file.plan.length) + 1, file', hsent, fun fuel hfuel => ?_⟩
        have hwrite : Server.writeToFile (write chunk) fuel (stale file) (min 1024 left) file =
            some ((chunk.length : ℤ), (file.writeAll chunk).2) := by
          rw [← hchunk]
          exact transfer_write (stale file) chunk (by omega) (by omega) (by omega)
        rw [uploadLoop, dif_pos hleft, hread]
        dsimp only
        rw [dif_neg hpos, hwrite]
        exact hloop fuel (by omega)
    · obtain ⟨rfl, rfl, rfl⟩ : true = complete ∧ bytes = written ∧ input = input' := by
        simpa [hleft] using h
      refine ⟨0, file, hfile, fun fuel _ => ?_⟩
      rw [uploadLoop, dif_neg hleft]

/-- A file that was opened stays opened. -/
theorem putLoop_some (left : ℕ) (bytes : List UInt8) (input : Source UInt8) :
    ∃ complete written input',
      putLoop left (some bytes) input = some (complete, some written, input') := by
  induction left using Nat.strong_induction_on generalizing bytes input with
  | _ left ih =>
    rw [putLoop]
    split_ifs with hleft
    · obtain ⟨retval, placed, input'⟩ := readAllFromSocket input (min 1024 left)
      dsimp only
      split_ifs with hretval
      · exact ⟨_, _, _, rfl⟩
      · exact ih _ (by omega) _ _
    · exact ⟨_, _, _, rfl⟩

variable {opened : Name × Disk} {h : Header}

theorem upload_eq_put (plan : List Foundation.Event) (input : Source UInt8) (output : Sink UInt8)
    (hopen : s.disk.create env h.fileName = some opened) :
    ∃ N, ∀ fuel ≥ N,
      upload env s fuel stale opened plan input output h = put env s input output h := by
  obtain ⟨complete, written, input', hloop⟩ := putLoop_some h.fileSize [] input
  obtain ⟨N, file', hsent, hupload⟩ := uploadLoop_of_putLoop stale hloop ⟨[], plan⟩ rfl
  refine ⟨N, fun fuel hfuel => ?_⟩
  rw [upload, hupload fuel hfuel, put, hopen]
  dsimp only [Option.map_some, Option.getD_some]
  rw [hloop]
  cases complete with
  | false => rfl
  | true =>
    dsimp only
    rw [hsent]

/-! ## What is stored -/

/-- The file is stored under its name, with the body as its contents. -/
structure Stored (env : Env) (s s' : Server) (name : Name) (body : List UInt8) : Prop where
  files : s'.files = s.files ++ [name]
  contents : s'.disk.contents env name = some body

/-- The file is gone, and the files are what they were. -/
structure Refused (env : Env) (s s' : Server) (name : Name) : Prop where
  files : s'.files = s.files
  contents : s'.disk.contents env name = none

theorem create_some (hslash : 47 ∉ h.fileName)
    (hopen : s.disk.create env h.fileName = some opened) :
    env.node h.fileName = some h.fileName ∧ opened.1 = h.fileName ∧ opened.2.present = true := by
  rw [Disk.create] at hopen
  split_ifs at hopen with hpresent
  obtain ⟨node, hnode, rfl⟩ := Option.map_eq_some_iff.mp hopen
  rw [Env.node, if_neg hslash] at hnode ⊢
  split_ifs at hnode ⊢
  obtain rfl := Option.some.inj hnode
  exact ⟨rfl, rfl, hpresent⟩

/-- A body that is as long as announced is stored; after any other the file is removed, and the
answer is `ERROR`. -/
theorem upload_stores (env : Env) (s : Server) (stale : Sink UInt8 → Stale)
    (plan : List Foundation.Event) (input : Source UInt8) (output : Sink UInt8)
    (hslash : 47 ∉ h.fileName) (hopen : s.disk.create env h.fileName = some opened) :
    ∃ N, ∀ fuel ≥ N, ∃ s' output',
      upload env s fuel stale opened plan input output h = some (s', output') ∧
        if input.rest.length = h.fileSize then
          Stored env s s' h.fileName input.rest ∧ output'.sent = output.sent
        else
          Refused env s s' h.fileName ∧
            output'.sent = output.sent ++ (error ++ env.errBadFileSize) := by
  obtain ⟨N, hput⟩ := upload_eq_put stale plan input output hopen
  obtain ⟨hnode, hname, hpresent⟩ := create_some hslash hopen
  refine ⟨N, fun fuel hfuel => ?_⟩
  rw [hput fuel hfuel]
  -- the answer of `respond`, which does not look at the verb again
  have hrespond := @put_respond env s input output ⟨{ h with cmd := .put }, input.rest⟩ rfl rfl
  simp only [respond, hopen] at hrespond
  split_ifs at hrespond ⊢ with hlen
  · obtain ⟨⟨s', output'⟩, hs', heq⟩ := Option.map_eq_some_iff.mp hrespond
    obtain ⟨rfl, hsent⟩ := Prod.mk.inj heq
    refine ⟨_, output', hs', ⟨rfl, ?_⟩, by simpa using hsent⟩
    simp [Disk.contents, hpresent, hnode, hname]
  · obtain ⟨⟨s', output'⟩, hs', heq⟩ := Option.map_eq_some_iff.mp hrespond
    obtain ⟨rfl, hsent⟩ := Prod.mk.inj heq
    refine ⟨_, output', hs', ⟨rfl, ?_⟩, hsent⟩
    simp [Disk.contents, Disk.remove, hpresent, hnode]

/-- Two bytes are announced, and come one by one. -/
theorem upload_stores_two : ∃ N, ∀ fuel ≥ N, ∃ s' output',
    upload plainEnv ⟨[], ⟨true, ∅⟩⟩ fuel (fun _ => ⟨0, 0⟩) ([97], ⟨true, AList.insert [97] [] ∅⟩)
      [.atMost 0, .interrupted] ⟨[7, 8], [.atMost 0]⟩ ⟨[], []⟩ ⟨.put, [97], 2⟩ = some (s', output') ∧
        Stored plainEnv ⟨[], ⟨true, ∅⟩⟩ s' [97] [7, 8] ∧ output'.sent = [] :=
  @upload_stores ([97], ⟨true, AList.insert [97] [] ∅⟩) ⟨.put, [97], 2⟩ plainEnv ⟨[], ⟨true, ∅⟩⟩
    (fun _ => ⟨0, 0⟩) [.atMost 0, .interrupted] ⟨[7, 8], [.atMost 0]⟩ ⟨[], []⟩ (by decide) rfl

end Cs241.Net
