import Dvcs.Git.Change
import Dvcs.Git.Exchange
import Dvcs.Git.History

/-!
This module contains the repositories that are driven through git.
-/

namespace Dvcs

namespace Git

def repository (r : WorkingCopy) : Repository Op where
  root := return r.root
  head := head r
  currentBranch := currentBranch r
  branches := branches r
  tags := tags r
  resolve := resolve r
  metadata := metadata r
  diff := diff r
  mergeBase := mergeBase r
  isClean := isClean r
  isHealthy := isHealthy r
  clean := clean r
  close := close r
  exists? := exists? r
  init := init r
  reinitialize := reinitialize r
  defaultBranch := defaultBranch
  defaultTag := none
  commits := commits r
  checkout := checkout r
  commit := commit r
  amend := amend r
  tag := tag r
  branch := branch r
  isAncestor := isAncestor r
  rebase := rebase r
  squash := squash r
  merge := merge r
  apply := apply r
  fetch := fetch r
  push := push r
  pushAll := pushAll r
  pull := pull r
  add := add r
  remove := remove r
  move := move r
  copy := copy r
  content := content r
  isEmpty := isEmpty r
  username := username r
  config := config r
  copyTo := copyTo r
  setPaths := setPaths r
  addRemote := addRemote r
  pullPath := pullPath r
  pushPath := pushPath r
  isValidRange := isValidRange r
  trackedBranch := trackedBranch r

end Git

end Dvcs
