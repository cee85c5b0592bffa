/-
  The order of members in source files: reading declarations, sorting their members and
  writing them back.
-/
import MemberOrder.Main
import MemberOrder.Proofs.Comments.Restyling
import MemberOrder.Proofs.Comments.Trailing
import MemberOrder.Proofs.Json.Accepting
import MemberOrder.Proofs.Json.Settling
import MemberOrder.Proofs.Layout.Endings
import MemberOrder.Proofs.Layout.Finding
import MemberOrder.Proofs.Layout.LineComments
import MemberOrder.Proofs.Layout.Positional
import MemberOrder.Proofs.Layout.Resplitting
import MemberOrder.Proofs.Options.Overriding
import MemberOrder.Proofs.Order.InputOrder
import MemberOrder.Proofs.Order.Lifting
import MemberOrder.Proofs.Order.NaturalOrder
import MemberOrder.Proofs.Order.NumberOrder
import MemberOrder.Proofs.Order.StepOrder
import MemberOrder.Proofs.Source.Pairing
import MemberOrder.Proofs.Source.Rescanning
import MemberOrder.Proofs.Style.Accounting
import MemberOrder.Proofs.Style.CodeStops
import MemberOrder.Proofs.Workspace.Patching
import MemberOrder.Proofs.Yaml.FlowKeys
import MemberOrder.Proofs.Yaml.Laying
import MemberOrder.Proofs.Yaml.Preserving
