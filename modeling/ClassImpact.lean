import ClassImpact.Store.Cached
import ClassImpact.Workspace
import ClassImpact.Proofs.Edges
import ClassImpact.Proofs.Filed
import ClassImpact.Proofs.Committed
import ClassImpact.Proofs.Repeated
import ClassImpact.Proofs.Sessions
import ClassImpact.Proofs.Relisted
import ClassImpact.Proofs.Impacts
import ClassImpact.Proofs.Rules
import ClassImpact.Proofs.ClassRules
import ClassImpact.Proofs.Visits
import ClassImpact.Proofs.Widening
import ClassImpact.Proofs.Modes
import ClassImpact.Proofs.Stores
import ClassImpact.Proofs.Forgotten
import ClassImpact.Proofs.Retained
import ClassImpact.Proofs.RetainedRules
import ClassImpact.Proofs.Conservative
import ClassImpact.Proofs.Outcomes
import ClassImpact.Proofs.Filters
import ClassImpact.Proofs.LostConstants
import ClassImpact.Proofs.Histories
import ClassImpact.Proofs.Forward
import ClassImpact.Proofs.Linked
import ClassImpact.Proofs.Replaced
import ClassImpact.Proofs.Quiet
import ClassImpact.Proofs.Tightened
import ClassImpact.Proofs.Retyped
import ClassImpact.Proofs.Readers
import ClassImpact.Proofs.Descendants
import ClassImpact.Proofs.Duality
import ClassImpact.Proofs.RemovedFiles
import ClassImpact.Proofs.Ancestry
import ClassImpact.Proofs.Inherited
import ClassImpact.Proofs.Patches
import ClassImpact.Proofs.Contents
import ClassImpact.Proofs.Restored
import ClassImpact.Proofs.Spared
import ClassImpact.Proofs.Subtypes
import ClassImpact.Proofs.Scanned
import ClassImpact.Proofs.Numbered
