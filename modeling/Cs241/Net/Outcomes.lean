import Cs241.Net.Overruns

/-!
# What the client does within its buffer

Where all accesses are within the buffer, the client sends and reports what it does in `Model`, which
does not look at the buffer.
-/
namespace Cs241.Net.Buffers

open Foundation

variable {m : Machine} {size : ℕ} {bytes line : List UInt8} {remote : Name}
  {input answer : Source UInt8} {output output' : Sink UInt8} {outcome : Outcome} {r : Report}

/-- What is done with a file; the report of a refusal is printed as for the other functions. -/
def Outcome.ofDownload : Download → Outcome
  | .refused r => .reported r
  | d => .downloaded d

/-- The report depends on the bytes only. -/
theorem checkError_eq (buf : List UInt8) : Net.checkError input buf =
    if buf ++ input.rest.take 3 = error then
      let text := (input.rest.drop 3).take 1024
      .errorMessage (cstring (text ++ error.drop text.length))
    else .invalidResponse := by
  simp only [Net.checkError, Net.readAllFromSocket, Source.readAll_placed, Source.readAll_rest]

theorem report_eq (hrest : input.rest = answer.rest.drop 3) : report answer =
    if answer.rest.take 3 = ok then .success else Net.checkError input (answer.rest.take 3) := by
  simp only [report, Source.readAll_placed, checkError_eq, Source.readAll_rest, hrest]

theorem readData_eq (hrest : input.rest = bytes.drop 11) : ∃ input',
    input'.rest = (bytes.drop 11).drop (received bytes).length ∧
      (if announced bytes < 2 ^ 63 then Net.readAllFromSocket input (announced bytes)
        else (0, [], input)) =
        (returned (announced bytes) (bytes.drop 11), received bytes, input') := by
  by_cases hlt : announced bytes < 2 ^ 63
  · refine ⟨(input.readAll (announced bytes)).2.2, ?_, ?_⟩
    · rw [Source.readAll_rest, hrest, received, if_pos hlt, drop_length_take]
    · rw [if_pos hlt, returned, received, if_pos hlt, ← hrest, ← Source.readAll_placed]
      simp only [hlt, true_and, ← Source.readAll_fst]
  · refine ⟨input, ?_, ?_⟩
    · rw [received, if_neg hlt, List.length_nil, List.drop_zero, hrest]
    · rw [if_neg hlt, returned, received, if_neg hlt, if_neg fun h => hlt h.1]

/-- The size is that of the data, unless too little or too much comes. -/
theorem get_eq (hrest : input.rest = answer.rest.drop 3) : Client.get answer =
    if answer.rest.take 3 = ok then
      let size := announced answer.rest
      let data := answer.rest.drop 11
      if data.drop (received answer.rest).length ≠ [] then .tooMuch (returned size data < size)
      else .saved (cstring (received answer.rest)) (returned size data < size)
    else .refused (Net.checkError input (answer.rest.take 3)) := by
  have hplaced : (answer.readAll 3).2.1 = answer.rest.take 3 := Source.readAll_placed ..
  have hrest' : (answer.readAll 3).2.2.rest = answer.rest.drop 3 := Source.readAll_rest ..
  unfold Client.get
  dsimp only
  rw [hplaced]
  by_cases hok : answer.rest.take 3 = ok
  · obtain ⟨input', hdata, hsize⟩ := getMessageSize_eq hrest'
    rw [if_pos hok, if_pos hok, hsize]
    dsimp only
    obtain ⟨input'', hleft, hread⟩ := readData_eq hdata
    rw [hread]
    dsimp only
    by_cases hmore : input''.rest = []
    · rw [if_neg (mt (readNext input'').mp (not_not.mpr hmore)), ← hleft,
        if_neg (not_not.mpr hmore)]
    · rw [if_pos ((readNext input'').mpr hmore), ← hleft, if_pos hmore]
  · rw [if_neg hok, if_neg hok, checkError_eq, checkError_eq, hrest, hrest']

/-- What was allocated for a file is cleared. -/
theorem text_append_calloc (xs : List UInt8) (size k : ℕ) :
    Block.text (xs ++ (m.calloc size).drop k) = Block.text xs := by
  unfold Machine.calloc
  split_ifs
  · rw [List.drop_replicate, text_append_zeros]
  · rw [List.drop_nil, List.append_nil]

theorem downloaded_ok (hrest : input.rest = answer.rest.drop 3) (hok : answer.rest.take 3 = ok)
    (h : downloaded m input output = .ok (outcome, output')) :
    outcome = .ofDownload (Client.get answer) ∧ output' = output := by
  obtain ⟨input₁, hrest₁, hsize⟩ := getMessageSize_eq hrest
  obtain ⟨input₂, hleft, hread⟩ := @readAllFromSocket_eq
    (m.calloc ((announced answer.rest + 1) % 2 ^ 64)) input₁ 0 (announced answer.rest)
    (announced_lt answer.rest)
  rw [hrest₁, ← received_eq] at hleft hread
  rw [downloaded, hsize] at h
  dsimp only at h
  rw [hread, bind_assoc] at h
  obtain ⟨block, hblock, h⟩ := bind_eq_ok.mp h
  rw [ok_bind] at h
  dsimp only at h
  rw [get_eq hrest, if_pos hok]
  dsimp only
  rw [← hleft]
  by_cases hmore : input₂.rest = []
  · rw [if_neg (mt (readNext input₂).mp (not_not.mpr hmore))] at h
    obtain ⟨contents, hcontents, h⟩ := bind_eq_ok.mp h
    obtain ⟨rfl, rfl⟩ := Prod.mk.inj (Except.ok.inj h)
    rw [if_neg (not_not.mpr hmore), Block.string_ok hcontents, Block.storeAll_ok hblock,
      List.take_zero, List.nil_append, text_append_calloc]
    exact ⟨rfl, rfl⟩
  · rw [if_pos ((readNext input₂).mpr hmore)] at h
    obtain ⟨rfl, rfl⟩ := Prod.mk.inj (Except.ok.inj h)
    rw [if_pos hmore]
    exact ⟨rfl, rfl⟩

section Printed

variable (hprint : ∀ buf, m.printErrorMessage buf = Block.string buf)
include hprint

theorem checkError_ok (hsize : 6 ≤ size) (hrest : input.rest = bytes.drop 3)
    (h : checkError m (cleared size (bytes.take 3)) input = .ok r) :
    r = Net.checkError input (bytes.take 3) := by
  obtain ⟨input', hrest', heq⟩ := @checkError_eq_bind m size bytes input hsize hrest
  rw [checkError_eq, hrest, ← List.take_add, List.drop_drop]
  rw [heq] at h
  obtain ⟨printed, hprinted, h⟩ := bind_eq_ok.mp h
  have hzero := mem_cleared.mp (Block.inBounds_string.mp ⟨printed, hprinted⟩)
  rw [equals_cleared (by decide) (List.length_take_le 6 bytes) hzero, ok_bind] at h
  by_cases herror : bytes.take 6 = error
  · obtain ⟨retval, input'', hread⟩ := errorText_read hrest' (cleared size (bytes.take 6))
    rw [if_pos (decide_eq_true herror), hread, bind_assoc] at h
    obtain ⟨block, hblock, h⟩ := bind_eq_ok.mp h
    rw [ok_bind] at h
    obtain ⟨text, htext, h⟩ := bind_eq_ok.mp h
    obtain rfl := Except.ok.inj h
    rw [if_pos herror, Block.string_ok ((hprint block).symm.trans htext), Block.storeAll_ok hblock,
      herror, cleared, List.drop_append, List.drop_replicate, List.take_zero, List.nil_append,
      Nat.zero_add, ← List.append_assoc, text_append_zeros]
    rfl
  · rw [if_neg (by simpa using herror)] at h
    rw [if_neg herror]
    exact (Except.ok.inj h).symm

/-- What the four functions do in the end, if they do not leave the buffer. -/
theorem answered_ok
    {accepted : Block → Source UInt8 → Sink UInt8 → Checked (Outcome × Sink UInt8)}
    (hline : (0 : UInt8) ∉ line) (hlen : 5 ≤ line.length) (body : List (List UInt8))
    (h : answered m (line ++ [0]) answer output body accepted = .ok (outcome, output')) :
    ∃ input', input'.rest = answer.rest.drop 3 ∧
      if answer.rest.take 3 = ok then
        accepted (cleared (line.length + 1) ok) input' (body.foldl send (send output line)) =
          .ok (outcome, output')
      else outcome = .reported (Net.checkError input' (answer.rest.take 3)) ∧
        output' = body.foldl send (send output line) := by
  obtain ⟨input', hrest, heq⟩ := @exchange_eq line answer output hline hlen body
  have hlen3 := List.length_take_le 3 answer.rest
  rw [answered, heq, ok_bind] at h
  dsimp only at h
  rw [equals_cleared (by decide) hlen3 (.inl (by omega)), ok_bind] at h
  refine ⟨input', hrest, ?_⟩
  by_cases hok : answer.rest.take 3 = ok
  · rw [if_pos (decide_eq_true hok), hok] at h
    rwa [if_pos hok]
  · rw [if_neg (by simpa using hok)] at h
    obtain ⟨r, hr, h⟩ := bind_eq_ok.mp h
    obtain ⟨rfl, rfl⟩ := Prod.mk.inj (Except.ok.inj h)
    rw [if_neg hok, checkError_ok hprint (by omega) hrest hr]
    exact ⟨rfl, rfl⟩

theorem reported_ok (hline : (0 : UInt8) ∉ line) (hlen : 5 ≤ line.length)
    (body : List (List UInt8))
    (h : answered m (line ++ [0]) answer output body (fun _ _ output => success output) =
      .ok (outcome, output')) :
    outcome = .reported (report answer) ∧ output' = body.foldl send (send output line) := by
  obtain ⟨input', hrest, hoption⟩ := answered_ok hprint hline hlen body h
  rw [report_eq hrest]
  by_cases hok : answer.rest.take 3 = ok
  · rw [if_pos hok] at hoption ⊢
    obtain ⟨rfl, rfl⟩ := Prod.mk.inj (Except.ok.inj hoption)
    exact ⟨rfl, rfl⟩
  · rwa [if_neg hok] at hoption ⊢

theorem delete_outcome (hremote : (0 : UInt8) ∉ remote)
    (h : delete m (message .delete remote ++ [0]) answer output = .ok (outcome, output')) :
    outcome = .reported (report answer) ∧ output' = Client.request output .delete remote :=
  reported_ok hprint (zero_notMem_message hremote) (le_length_message _ _) [] h

theorem put_outcome (hremote : (0 : UInt8) ∉ remote) {content : List UInt8}
    (h : put m (message .put remote ++ [0]) answer output (some content) =
      .ok (outcome, output')) :
    outcome = .reported (report answer) ∧ output' = Client.put output remote content := by
  rw [put] at h
  exact reported_ok hprint (zero_notMem_message hremote) (le_length_message _ _) _ h

theorem get_outcome (hremote : (0 : UInt8) ∉ remote)
    (h : get m (message .get remote ++ [0]) answer output = .ok (outcome, output')) :
    outcome = .ofDownload (Client.get answer) ∧ output' = Client.request output .get remote := by
  obtain ⟨input', hrest, hoption⟩ := answered_ok hprint (zero_notMem_message hremote)
    (le_length_message _ _) [] h
  by_cases hok : answer.rest.take 3 = ok
  · rw [if_pos hok] at hoption
    exact downloaded_ok hrest hok hoption
  · rw [if_neg hok] at hoption
    rw [get_eq hrest, if_neg hok]
    exact hoption

end Printed

end Cs241.Net.Buffers
