import Multicloud.Registry

namespace Multicloud

namespace Shipped

def aws : Provider := ⟨"aws", by decide⟩

def azure : Provider := ⟨"azure", by decide⟩

def cloudflare : Provider := ⟨"cloudflare", by decide⟩

def gcp : Provider := ⟨"gcp", by decide⟩

def v1 : Version := ⟨"1.0.0", [1, 0, 0], by decide⟩

def v1_1 : Version := ⟨"1.1.0", [1, 1, 0], by decide⟩

def copy (property argument : String) : Substitution := { property, argument }

def instanceClass (argument : String) : Substitution :=
  { property := "instance_class", argument, conversion := .instanceClass }

def performanceClass (argument : String) : Substitution :=
  { property := "performance_class", argument, conversion := .performanceClass }

def refer (property argument output : String) : Substitution :=
  { property, argument, conversion := .reference, output := some output }

def awsRules (computeVersion : String) : List (Kind × RuleDraft) :=
  [(.computeNode,
      { artifact := "aws_instance"
        moduleSource := "terraform-aws-modules/ec2-instance/aws"
        moduleVersion := computeVersion
        substitutions := [copy "name" "name", instanceClass "instance_type"]
        attributes := [("monitoring", .bool true)] }),
    (.networkLink,
      { artifact := "aws_vpc_peering_connection"
        moduleSource := "nebulaforge-aws-modules/instance-link/aws"
        moduleVersion := "3.2.0"
        substitutions :=
          [refer "from" "source_instance_id" "id", refer "to" "peer_instance_id" "id",
            copy "topology" "topology"]
        attributes := [] }),
    (.ingressRoute,
      { artifact := "aws_lb_listener_rule"
        moduleSource := "terraform-aws-modules/alb/aws"
        moduleVersion := "9.9.0"
        substitutions :=
          [copy "name" "name", copy "domain" "host_header",
            refer "backend" "target_instance_id" "id"]
        attributes := [] }),
    (.volume,
      { artifact := "aws_ebs_volume"
        moduleSource := "nebulaforge-aws-modules/ebs-volume/aws"
        moduleVersion := "1.4.0"
        substitutions :=
          [copy "name" "name", performanceClass "volume_type",
            refer "attached_to" "instance_id" "id"]
        attributes := [("size_gb", .int 100), ("encrypted", .bool true)] }),
    (.dnsRecord,
      { artifact := "aws_route53_record"
        moduleSource := "terraform-aws-modules/route53/aws//modules/records"
        moduleVersion := "2.11.0"
        substitutions :=
          [copy "domain" "record_name", copy "record_type" "type",
            refer "route" "alias_target" "dns_name"]
        attributes := [] })]

def awsStorage : TextMap String :=
  .ofList [("standard", "gp3"), ("high", "io2"), ("archive", "sc1")] compare

def aws1 : RuleSetDraft where
  provider := aws
  version := v1
  description := "AWS via Terraform registry modules"
  idStart := ""
  rules := awsRules "5.6.0"
  tables :=
    { instanceClass := .ofList
        [("small", "t3.small"), ("medium", "t3.medium"), ("medium-ha", "t3.medium"),
          ("large", "m6i.large"), ("xlarge", "m6i.xlarge")] compare
      performanceClass := awsStorage }

def aws1_1 : RuleSetDraft where
  provider := aws
  version := v1_1
  description := "AWS via Terraform registry modules (Graviton-aware HA classes)"
  idStart := ""
  rules := awsRules "5.7.0"
  tables :=
    { instanceClass := .ofList
        [("small", "t3.small"), ("medium", "t3.medium"), ("medium-ha", "m7g.medium"),
          ("large", "m6i.large"), ("xlarge", "m6i.xlarge"), ("large-ha", "m7g.large")] compare
      performanceClass := awsStorage }

def gcpRules : List (Kind × RuleDraft) :=
  [(.computeNode,
      { artifact := "google_compute_instance"
        moduleSource := "terraform-google-modules/vm/google//modules/compute_instance"
        moduleVersion := "11.1.0"
        substitutions := [copy "name" "hostname", instanceClass "machine_type"]
        attributes := [] }),
    (.networkLink,
      { artifact := "google_compute_network_peering"
        moduleSource := "terraform-google-modules/network/google//modules/network-peering"
        moduleVersion := "9.1.0"
        substitutions :=
          [refer "from" "local_instance" "self_link", refer "to" "peer_instance" "self_link"]
        attributes := [] }),
    (.ingressRoute,
      { artifact := "google_compute_url_map"
        moduleSource := "GoogleCloudPlatform/lb-http/google"
        moduleVersion := "11.1.0"
        substitutions :=
          [copy "name" "name", copy "domain" "host",
            refer "backend" "backend_instance" "self_link"]
        attributes := [("ssl", .bool true)] }),
    (.volume,
      { artifact := "google_compute_disk"
        moduleSource := "nebulaforge-gcp-modules/persistent-disk/google"
        moduleVersion := "1.2.0"
        substitutions :=
          [copy "name" "name", performanceClass "disk_type",
            refer "attached_to" "instance" "self_link"]
        attributes := [("size_gb", .int 100)] }),
    (.dnsRecord,
      { artifact := "google_dns_record_set"
        moduleSource := "terraform-google-modules/cloud-dns/google"
        moduleVersion := "5.3.0"
        substitutions :=
          [copy "domain" "record_name", copy "record_type" "type",
            refer "route" "target" "external_ip"]
        attributes := [("ttl", .int 300)] })]

def gcp1 : RuleSetDraft where
  provider := gcp
  version := v1
  description := "Google Cloud via Terraform registry modules"
  idStart := ""
  rules := gcpRules
  tables :=
    { instanceClass := .ofList
        [("small", "e2-small"), ("medium", "e2-medium"), ("medium-ha", "e2-standard-2"),
          ("large", "e2-standard-4"), ("xlarge", "e2-standard-8")] compare
      performanceClass := .ofList
        [("standard", "pd-balanced"), ("high", "pd-ssd"), ("archive", "pd-standard")] compare }

def azureRules : List (Kind × RuleDraft) :=
  [(.computeNode,
      { artifact := "azurerm_linux_virtual_machine"
        moduleSource := "Azure/compute/azurerm"
        moduleVersion := "5.3.0"
        substitutions := [copy "name" "vm_hostname", instanceClass "vm_size"]
        attributes := [] }),
    (.networkLink,
      { artifact := "azurerm_virtual_network_peering"
        moduleSource := "Azure/vnet/azurerm"
        moduleVersion := "4.1.0"
        substitutions :=
          [refer "from" "source_vm_id" "vm_id", refer "to" "remote_vm_id" "vm_id"]
        attributes := [] }),
    (.ingressRoute,
      { artifact := "azurerm_application_gateway"
        moduleSource := "Azure/app-gateway/azurerm"
        moduleVersion := "1.1.0"
        substitutions :=
          [copy "name" "name", copy "domain" "host_name",
            refer "backend" "backend_vm_id" "vm_id"]
        attributes := [] }),
    (.volume,
      { artifact := "azurerm_managed_disk"
        moduleSource := "Azure/managed-disk/azurerm"
        moduleVersion := "1.0.2"
        substitutions :=
          [copy "name" "name", performanceClass "storage_account_type",
            refer "attached_to" "virtual_machine_id" "vm_id"]
        attributes := [("disk_size_gb", .int 100)] }),
    (.dnsRecord,
      { artifact := "azurerm_dns_cname_record"
        moduleSource := "Azure/dns/azurerm"
        moduleVersion := "1.0.1"
        substitutions := [copy "domain" "name", refer "route" "record" "public_fqdn"]
        attributes := [("ttl", .int 300)] })]

def azure1 : RuleSetDraft where
  provider := azure
  version := v1
  description := "Microsoft Azure via Terraform registry modules"
  idStart := "nf_"
  rules := azureRules
  tables :=
    { instanceClass := .ofList
        [("small", "Standard_B2s"), ("medium", "Standard_D2s_v5"),
          ("medium-ha", "Standard_D2s_v5"), ("large", "Standard_D4s_v5"),
          ("xlarge", "Standard_D8s_v5")] compare
      performanceClass := .ofList
        [("standard", "StandardSSD_LRS"), ("high", "Premium_LRS"),
          ("archive", "Standard_LRS")] compare }

def cloudflare1 : RuleSetDraft where
  provider := cloudflare
  version := v1
  description := "Cloudflare managed DNS"
  idStart := ""
  rules :=
    [(.dnsRecord,
      { artifact := "cloudflare_record"
        moduleSource := "nebulaforge-cloudflare-modules/record/cloudflare"
        moduleVersion := "1.0.0"
        substitutions := [copy "domain" "name", copy "record_type" "type"]
        attributes := [("proxied", .bool true)] })]
  tables := {}

def drafts : List RuleSetDraft := [aws1, aws1_1, gcp1, azure1, cloudflare1]

end Shipped

def Registry.builtin : Registry :=
  ⟨Shipped.drafts.foldl (fun sets d ↦
    sets.insert d.provider (((sets.getD d.provider ∅).insert d.version d.finish))) ∅⟩

end Multicloud
